import GumEngine.Pipeline.BindFirst

/-!
# What can still be mined

The invariant behind exactly-once execution. A dropped attempt was never delivered or is
dead; the attempts of a job that are not dropped share one nonce, of which the chain takes
one; and while `never_accepted` is set, nothing at the nonce can be mined.
-/

namespace GumEngine
open Relational Transition

namespace World

/-- The chain took the nonce with this very attempt. -/
def Mines (w : World) (r : AttemptRow) : Prop := w.mined r.slot = some (.ours r.txHash)

/-- The attempt never reached a node, or cannot be in a block. -/
def Harmless (w : World) (r : AttemptRow) : Prop :=
  (r.slot,r.txHash) ∉ w.delivered ∨ r.txHash ∈ w.dead

/-- The chain took the nonce with something else. -/
def Taken (w : World) (r : AttemptRow) : Prop :=
  ∃ m, w.mined r.slot = some m ∧ m ≠ .ours r.txHash

end World

/-- The attempt stored under `id`, if any, is not dropped. -/
def Store.Alive (s : Store) (id : Uuid) : Prop :=
  ∀ r ∈ s.txAttempts.rows, r.id = id → r.status ≠ .dropped

/-- The attempt whose broadcast is under way. -/
def Activity.onAir : Activity → Option Uuid
  | .sending f => some f.last.id
  | _ => none

/-- What a task may have in flight. -/
structure InFlight.Sound (s : Store) (f : InFlight) : Prop where
  alive : ∀ a ∈ f.attempts, s.Alive a.id
  owner : ∃ a ∈ f.attempts, a.owner = f.owner
  todo : f.neverAccepted = true → f.todo = none

/-- Database and chain. -/
structure ChainSound (w : World) : Prop where
  mined : ∀ k h, w.mined k = some (.ours h) → (k,h) ∈ w.delivered ∧ h ∉ w.dead
  delivered : ∀ k h, (k,h) ∈ w.delivered → ∃ r ∈ w.store.txAttempts.rows, r.slot = k ∧ r.txHash = h
  included : ∀ r ∈ w.store.txAttempts.rows, r.mined → w.Mines r
  replaced : ∀ r ∈ w.store.txAttempts.rows, r.status = .replaced →
    ∃ h, w.mined r.slot = some (.ours h)
  dropped : ∀ r ∈ w.store.txAttempts.rows, r.status = .dropped → w.Harmless r
  slots : ∀ r ∈ w.store.txAttempts.rows, r.status ≠ .dropped →
    ∃ x ∈ w.store.nonceSlots.rows, x.slot = r.slot

/-- Jobs and their attempts. -/
structure JobsSound (w : World) : Prop where
  owner : ∀ r ∈ w.store.txAttempts.rows, ∀ i, r.jobId = some i → ∃ j ∈ w.store.jobs.rows, j.id = i
  home : ∀ r ∈ w.store.txAttempts.rows, ∀ r' ∈ w.store.txAttempts.rows, r.status ≠ .dropped →
    r'.status ≠ .dropped → ∀ i, r.jobId = some i → r'.jobId = some i → r.slot = r'.slot
  queued : ∀ j ∈ w.store.jobs.rows, j.status = .queued → ∀ r ∈ w.store.txAttempts.rows,
    r.jobId = some j.id → r.status = .dropped
  failed : ∀ j ∈ w.store.jobs.rows, j.status = .failed → ∀ r ∈ w.store.txAttempts.rows,
    r.jobId = some j.id → r.purpose = .job → r.status = .dropped ∨ w.Taken r

/-- Tasks and their attempts. While a first broadcast is unanswered only the bytes on the
air can have been delivered. -/
structure TasksSound (w : World) : Prop where
  held : ∀ p, ∀ f ∈ (w.tasks p).inFlight, f.Sound w.store
  todo : ∀ p, ∀ g ∈ (w.tasks p).todo, ∀ a ∈ g, w.store.Alive a.id
  pending : ∀ p a, (w.tasks p).pending = some a → w.store.Alive a.id
  goal : ∀ p goal a left, w.tasks p = .binding goal a left → ∀ f ∈ goal.inFlight,
    a.owner = f.owner
  fresh : ∀ p, ∀ f ∈ (w.tasks p).inFlight, f.neverAccepted = true →
    ∀ r ∈ w.store.txAttempts.rows, r.slot = p.slot f.nonce → (w.tasks p).onAir ≠ some r.id →
      w.Harmless r
  first : ∀ p a left, w.tasks p = .binding .execute a left →
    (∃ r ∈ w.store.txAttempts.rows, r.id = a.id) →
      ∀ r ∈ w.store.txAttempts.rows, r.slot = a.slot → w.Harmless r

structure Sound (w : World) : Prop where
  chain : ChainSound w
  jobs : JobsSound w
  tasks : TasksSound w

section Facts

variable {w : World} {r r' : AttemptRow}

/-- What is mined was delivered and is not dead. -/
theorem ChainSound.harmless (h : ChainSound w) (hr : w.Harmless r) : ¬ w.Mines r := by
  intro hm
  obtain ⟨hd,hn⟩ := h.mined _ _ hm
  rcases hr with hr | hr
  · exact hr hd
  · exact hn hr

/-- Where everything is harmless, the nonce is not ours. -/
theorem ChainSound.not_ours (h : ChainSound w) {k : Slot}
    (hk : ∀ r ∈ w.store.txAttempts.rows, r.slot = k → w.Harmless r) (hash : B256) :
    w.mined k ≠ some (.ours hash) := by
  intro hm
  obtain ⟨r,hr,rfl,rfl⟩ := h.delivered _ _ (h.mined _ _ hm).1
  exact h.harmless (hk r hr rfl) hm

theorem World.Committed.row (ht : Traced w) {k : Slot} {a : Attempt} (ha : w.Committed k a) :
    ∃ r ∈ w.store.txAttempts.rows, r.id = a.id ∧ r.slot = k ∧ r.txHash = a.txHash ∧
      r.jobId = a.owner.jobId := by
  obtain ⟨b,hb,hcop,hslot⟩ := ha
  obtain ⟨r,hr,hid,hof⟩ := ht.stored b hb
  exact ⟨r,hr,hid.trans hcop.id.symm,hof.slot.trans hslot,hof.txHash.trans hcop.txHash.symm,
    hof.jobId.trans (by rw [hcop.owner])⟩

theorem InFlight.last_mem (f : InFlight) : f.last ∈ f.attempts :=
  List.mem_append_right _ List.mem_cons_self

/-- The newest attempt of a nonce in flight sits at it. -/
theorem Traced.last_slot (ht : Traced w) {p : PairKey} {f : InFlight}
    (hf : f ∈ (w.tasks p).inFlight) : f.last.slot = p.slot f.nonce := by
  obtain ⟨b,-,hcop,hslot⟩ := ht.held p f hf f.last f.last_mem
  exact hcop.slot.trans hslot

end Facts

section Rewriting

variable {w : World} {s : Store} {F : AttemptRow → AttemptRow}

theorem World.harmless_same {w : World} {r r' : AttemptRow} (h : r'.Same r) :
    w.Harmless r' ↔ w.Harmless r := by
  unfold World.Harmless
  rw [h.slot,h.txHash]

theorem World.taken_same {w : World} {r r' : AttemptRow} (h : r'.Same r) :
    w.Taken r' ↔ w.Taken r := by
  unfold World.Taken
  rw [h.slot,h.txHash]

/-- Rows rewritten in place, by a change that asks nothing of the tasks. -/
theorem TasksSound.rewritten (h : TasksSound w) (hF : AttemptRow.Gentle F)
    (hm : s.txAttempts.rows = w.store.txAttempts.rows.map F) :
    TasksSound { w with store := s } := by
  have hrow : ∀ x ∈ s.txAttempts.rows, ∃ r ∈ w.store.txAttempts.rows, F r = x := by
    rw [hm]
    exact fun _ => List.mem_map.mp
  have halive : ∀ id, w.store.Alive id → s.Alive id := by
    intro id ha x hx hid hd
    obtain ⟨r,hr,rfl⟩ := hrow x hx
    exact ha r hr ((hF.same r).id.symm.trans hid) ((hF.dropped r).mp hd)
  refine ⟨?_,?_,?_,h.goal,?_,?_⟩
  · intro p f hf
    obtain ⟨h1,h2,h3⟩ := h.held p f hf
    exact ⟨fun a ha => halive _ (h1 a ha),h2,h3⟩
  · exact fun p g hg a ha => halive _ (h.todo p g hg a ha)
  · exact fun p a ha => halive _ (h.pending p a ha)
  · intro p f hf hfr x hx hs hair
    obtain ⟨r,hr,rfl⟩ := hrow x hx
    rw [(hF.same r).slot] at hs
    rw [(hF.same r).id] at hair
    exact (World.harmless_same (hF.same r)).mpr (h.fresh p f hf hfr r hr hs hair)
  · intro p a left hp hex x hx hs
    obtain ⟨r,hr,rfl⟩ := hrow x hx
    rw [(hF.same r).slot] at hs
    refine (World.harmless_same (hF.same r)).mpr (h.first p a left hp ?_ r hr hs)
    obtain ⟨y,hy,hid⟩ := hex
    obtain ⟨r',hr',rfl⟩ := hrow y hy
    exact ⟨r',hr',(hF.same r').id.symm.trans hid⟩

/-- The obligations of an operation that rewrites attempts by `F` and jobs by `G`. -/
theorem Sound.of_maps {G : JobRow → JobRow} (h : Sound w) (hF : AttemptRow.Gentle F)
    (hG : ∀ j, (G j).id = j.id) (hm : s.txAttempts.rows = w.store.txAttempts.rows.map F)
    (hj : s.jobs.rows = w.store.jobs.rows.map G) (hs : s.nonceSlots = w.store.nonceSlots)
    (mined : ∀ r ∈ w.store.txAttempts.rows, (F r).mined → w.Mines r)
    (replaced : ∀ r ∈ w.store.txAttempts.rows, (F r).status = .replaced →
      ∃ hash, w.mined r.slot = some (.ours hash))
    (queued : ∀ j ∈ w.store.jobs.rows, (G j).status = .queued → j.status = .queued)
    (failed : ∀ j ∈ w.store.jobs.rows, (G j).status = .failed → j.status = .failed ∨
      ∀ r ∈ w.store.txAttempts.rows, r.jobId = some j.id → r.purpose = .job →
        r.status = .dropped ∨ w.Taken r) :
    Sound { w with store := s } := by
  have hrow : ∀ x ∈ s.txAttempts.rows, ∃ r ∈ w.store.txAttempts.rows, F r = x := by
    rw [hm]
    exact fun _ => List.mem_map.mp
  have hjob : ∀ y ∈ s.jobs.rows, ∃ j ∈ w.store.jobs.rows, G j = y := by
    rw [hj]
    exact fun _ => List.mem_map.mp
  refine ⟨⟨h.chain.mined,?_,?_,?_,?_,?_⟩,⟨?_,?_,?_,?_⟩,h.tasks.rewritten hF hm⟩
  · intro k hash hd
    obtain ⟨r,hr,hk,hh⟩ := h.chain.delivered k hash hd
    exact ⟨F r,by rw [hm]; exact List.mem_map_of_mem hr,(hF.same r).slot.trans hk,
      (hF.same r).txHash.trans hh⟩
  · intro x hx hmx
    obtain ⟨r,hr,rfl⟩ := hrow x hx
    show w.mined (F r).slot = some (.ours (F r).txHash)
    rw [(hF.same r).slot,(hF.same r).txHash]
    exact mined r hr hmx
  · intro x hx hrx
    obtain ⟨r,hr,rfl⟩ := hrow x hx
    rw [(hF.same r).slot]
    exact replaced r hr hrx
  · intro x hx hdx
    obtain ⟨r,hr,rfl⟩ := hrow x hx
    exact (World.harmless_same (hF.same r)).mpr (h.chain.dropped r hr ((hF.dropped r).mp hdx))
  · intro x hx hdx
    obtain ⟨r,hr,rfl⟩ := hrow x hx
    rw [hs,(hF.same r).slot]
    exact h.chain.slots r hr fun hd => hdx ((hF.dropped r).mpr hd)
  · intro x hx i hi
    obtain ⟨r,hr,rfl⟩ := hrow x hx
    obtain ⟨j,hjm,rfl⟩ := h.jobs.owner r hr i ((hF.same r).jobId ▸ hi)
    exact ⟨G j,by rw [hj]; exact List.mem_map_of_mem hjm,hG j⟩
  · intro x hx x' hx' hd hd' i hi hi'
    obtain ⟨r,hr,rfl⟩ := hrow x hx
    obtain ⟨r',hr',rfl⟩ := hrow x' hx'
    rw [(hF.same r).slot,(hF.same r').slot]
    exact h.jobs.home r hr r' hr' (fun hx => hd ((hF.dropped r).mpr hx))
      (fun hx => hd' ((hF.dropped r').mpr hx)) i ((hF.same r).jobId ▸ hi)
      ((hF.same r').jobId ▸ hi')
  · intro y hy hq x hx hi
    obtain ⟨j,hjm,rfl⟩ := hjob y hy
    obtain ⟨r,hr,rfl⟩ := hrow x hx
    rw [hG j,(hF.same r).jobId] at hi
    exact (hF.dropped r).mpr (h.jobs.queued j hjm (queued j hjm hq) r hr hi)
  · intro y hy hf x hx hi hp
    obtain ⟨j,hjm,rfl⟩ := hjob y hy
    obtain ⟨r,hr,rfl⟩ := hrow x hx
    rw [hG j,(hF.same r).jobId] at hi
    rw [(hF.same r).purpose] at hp
    have hold : r.status = .dropped ∨ w.Taken r := by
      rcases failed j hjm hf with hf | hf
      · exact h.jobs.failed j hjm hf r hr hi hp
      · exact hf r hr hi hp
    exact hold.imp (hF.dropped r).mpr (World.taken_same (w := w) (hF.same r)).mpr

end Rewriting

section Ops

variable {w : World} {s : Store} {a : Attempt}

theorem Sound.settle (h : Sound w) {inc : Inclusion} (hn : a.Names w.store)
    (hmined : w.mined a.slot = some (.ours a.txHash)) (hs : Settles w.store a inc s) :
    Sound { w with store := s } := by
  refine h.of_maps (settleRow_gentle a inc) (includeJob_id a inc) hs.attempts hs.jobs hs.slots
    ?_ ?_ ?_ ?_
  · intro r hr hm
    have hst := settleRow_status a inc r
    by_cases hb : r.status = .broadcast
    · rw [if_pos hb] at hst
      by_cases hid : r.id = a.id
      · have hof := hn r hr hid
        show w.mined r.slot = some (.ours r.txHash)
        rw [hof.slot,hof.txHash]
        exact hmined
      · rw [if_neg hid] at hst
        split at hst <;> simp [AttemptRow.mined,hst] at hm
    · rw [if_neg hb] at hst
      exact h.chain.included r hr (by simpa only [AttemptRow.mined,hst] using hm)
  · intro r hr hrep
    have hst := settleRow_status a inc r
    by_cases hk : r.slot = a.slot
    · exact ⟨a.txHash,by rw [hk]; exact hmined⟩
    · by_cases hb : r.status = .broadcast
      · rw [if_pos hb,if_neg hk,hrep] at hst
        split at hst <;> cases hst
      · rw [if_neg hb] at hst
        exact h.chain.replaced r hr (hst.symm.trans hrep)
  · intro j _ hq
    simp only [includeJob,ownJob,rewrite,JobRow.toIncluded] at hq
    split at hq
    · split at hq
      · cases hq
      · exact hq
    · exact hq
  · intro j _ hf
    left
    simp only [includeJob,ownJob,rewrite,JobRow.toIncluded] at hf
    split at hf
    · split at hf
      · cases hf
      · exact hf
    · exact hf

/-- A confirmed cancel has taken the nonce of every attempt of its job. -/
theorem Sound.confirm (h : Sound w) (hn : a.Names w.store) (hs : Confirms w.store a s) :
    Sound { w with store := s } := by
  obtain ⟨r₀,hr₀,hid₀,hin₀⟩ := hs.found
  have hof₀ := hn r₀ hr₀ hid₀
  have hm₀ := h.chain.included r₀ hr₀ (.inl hin₀)
  refine h.of_maps (confirmRow_gentle a) (confirmJob_id a) hs.attempts hs.jobs hs.slots
    ?_ ?_ ?_ ?_
  · intro r hr hm
    refine h.chain.included r hr ?_
    have hst := confirmRow_status a r
    split at hst
    · next hx => exact .inl hx.2
    · simpa only [AttemptRow.mined,hst] using hm
  · intro r hr hrep
    have hst := confirmRow_status a r
    rw [hrep] at hst
    split at hst
    · cases hst
    · exact h.chain.replaced r hr hst.symm
  · intro j _ hq
    simp only [confirmJob,ownJob,rewrite,JobRow.toConfirmed,JobRow.toFailed] at hq
    split at hq <;> split at hq
    · cases hq
    · exact hq
    · cases hq
    · exact hq
  · intro j hj hf
    by_cases ho : a.owner = .job j.id
    · by_cases hp : a.purpose = .job
      · left
        simp only [confirmJob,if_pos hp,ownJob,rewrite,JobRow.toConfirmed] at hf
        split at hf
        · cases hf
        · exact hf
      · -- a cancel was mined: it has taken the nonce of the job's attempts
        right
        intro r hr hi hpr
        by_cases hd : r.status = .dropped
        · exact .inl hd
        · right
          have hslot : r.slot = r₀.slot := by
            refine h.jobs.home r hr r₀ hr₀ hd ?_ j.id hi (hof₀.jobId_eq_some.mpr ho)
            rw [hin₀]
            decide
          refine ⟨.ours r₀.txHash,by rw [hslot]; exact hm₀,?_⟩
          intro he
          obtain rfl := hash_unique hr₀ hr (Mined.ours.inj he)
          exact hp (hof₀.purpose.symm.trans hpr)
    · rw [confirmJob_other ho] at hf
      exact .inl hf

theorem Sound.confirmInTx (h : Sound w) (hn : a.Names w.store) :
    Sound { w with store := (confirmInTx w.store a).2 } := by
  rcases confirmInTx_spec w.store a with hx | ⟨-,hs⟩
  · rw [hx]
    exact h
  · exact h.confirm hn hs

theorem Sound.demote (h : Sound w) (a : Attempt) :
    Sound { w with store := (demoteInclusion w.store a).2 } := by
  rcases demoteInclusion_spec w.store a with hx | ⟨-,hs⟩
  · rw [hx]
    exact h
  · have hjob : ∀ j : JobRow, (demoteJob a j).status = .sent ∨ demoteJob a j = j := by
      intro j
      simp only [demoteJob,ownJob,rewrite]
      split
      · split
        · exact .inl rfl
        · exact .inr rfl
      · exact .inr rfl
    refine h.of_maps (demoteRow_gentle a) (demoteJob_id a) hs.attempts hs.jobs hs.slots
      ?_ ?_ ?_ ?_
    · intro r hr hm
      refine h.chain.included r hr ?_
      have hst := demoteRow_status a r
      split at hst
      · next hx => exact .inl hx.2
      · simpa only [AttemptRow.mined,hst] using hm
    · intro r hr hrep
      have hst := demoteRow_status a r
      rw [hrep] at hst
      split at hst
      · cases hst
      · exact h.chain.replaced r hr hst.symm
    · intro j _ hq
      rcases hjob j with hx | hx
      · rw [hx] at hq
        cases hq
      · rwa [hx] at hq
    · intro j _ hf
      rcases hjob j with hx | hx
      · rw [hx] at hf
        cases hf
      · rw [hx] at hf
        exact .inl hf

/-- An operation that touches no attempt and no slot, and fails queued jobs only. -/
theorem Sound.jobsOnly {G : JobRow → JobRow} (h : Sound w) (hG : ∀ j, (G j).id = j.id)
    (hs : JobsOnly w.store s) (hj : s.jobs.rows = w.store.jobs.rows.map G)
    (queued : ∀ j ∈ w.store.jobs.rows, (G j).status = .queued → j.status = .queued)
    (failed : ∀ j ∈ w.store.jobs.rows, (G j).status = .failed → j.status = .failed ∨
      j.status = .queued) : Sound { w with store := s } := by
  refine h.of_maps .id' hG (by rw [hs.attempts,List.map_id']) hj hs.slots h.chain.included
    h.chain.replaced queued ?_
  intro j hjm hf
  rcases failed j hjm hf with hf | hf
  · exact .inl hf
  · exact .inr fun r hr hi _ => .inl (h.jobs.queued j hjm hf r hr hi)

theorem Sound.insert (h : Sound w) {id : JobId} {request : JobRequest}
    (hs : JobsOnly w.store s) (hfresh : ∀ j ∈ w.store.jobs.rows, j.id ≠ id)
    (hj : s.jobs.rows = w.store.jobs.rows ++ [JobRow.new id request]) :
    Sound { w with store := s } := by
  -- a job that is new has no attempt
  have hnone : ∀ r ∈ w.store.txAttempts.rows, r.jobId ≠ some id := by
    intro r hr hi
    obtain ⟨j,hjm,hid⟩ := h.jobs.owner r hr id hi
    exact hfresh j hjm hid
  have hold : ∀ j ∈ s.jobs.rows, j ∈ w.store.jobs.rows ∨ j = JobRow.new id request := by
    intro j hjm
    rw [hj] at hjm
    simpa using hjm
  refine ⟨⟨h.chain.mined,?_,?_,?_,?_,?_⟩,⟨?_,?_,?_,?_⟩,?_⟩
  · rw [show s.txAttempts = _ from hs.attempts]
    exact h.chain.delivered
  · rw [show s.txAttempts = _ from hs.attempts]
    exact h.chain.included
  · rw [show s.txAttempts = _ from hs.attempts]
    exact h.chain.replaced
  · rw [show s.txAttempts = _ from hs.attempts]
    exact h.chain.dropped
  · rw [show s.txAttempts = _ from hs.attempts,show s.nonceSlots = _ from hs.slots]
    exact h.chain.slots
  · intro r hr i hi
    rw [show s.txAttempts = _ from hs.attempts] at hr
    obtain ⟨j,hjm,hid⟩ := h.jobs.owner r hr i hi
    exact ⟨j,by rw [hj]; exact List.mem_append_left _ hjm,hid⟩
  · rw [show s.txAttempts = _ from hs.attempts]
    exact h.jobs.home
  · intro j hjm hq r hr hi
    rw [show s.txAttempts = _ from hs.attempts] at hr
    rcases hold j hjm with hjm | rfl
    · exact h.jobs.queued j hjm hq r hr hi
    · exact absurd hi (hnone r hr)
  · intro j hjm hf r hr hi hp
    rw [show s.txAttempts = _ from hs.attempts] at hr
    rcases hold j hjm with hjm | rfl
    · exact h.jobs.failed j hjm hf r hr hi hp
    · exact absurd hi (hnone r hr)
  · exact h.tasks.rewritten .id' (by rw [hs.attempts,List.map_id'])

theorem Sound.failQueued (h : Sound w) (id : JobId) (failure : JobFailure) (message : String)
    (revertData : Option Bytes) :
    Sound { w with store := (failJob w.store id [.queued] failure message revertData).2 } := by
  have hlive : ∀ x ∈ [JobStatus.queued], x.isTerminal = false := by decide
  obtain ⟨-,hj⟩ := failJob_spec (s := w.store) id failure message revertData hlive
  have hcase : ∀ j : JobRow, rewrite (JobRow.whereIn id [.queued])
      (fun j => { j.toFailed failure message with revertData := revertData }) j = j ∨
      j.status = .queued := by
    intro j
    unfold rewrite
    split
    · next hp => exact .inr (by simp_all [JobRow.whereIn])
    · exact .inl rfl
  refine h.jobsOnly ?_ (failJob_only w.store id [.queued] failure message revertData) hj ?_ ?_
  · intro j
    refine rewrite_same JobRow.id ?_ j
    intro j _; rfl
  · intro j _ hq
    rcases hcase j with hx | hx
    · rwa [hx] at hq
    · exact hx
  · intro j _ hf
    rcases hcase j with hx | hx
    · rw [hx] at hf
      exact .inl hf
    · exact .inr hx

/-- What the rest of the pipeline does to the store. -/
theorem Sound.op (h : Sound w) {op : Op} (ho : op.Possible w) :
    Sound { w with store := op.apply w.store } := by
  have hsame : Sound { w with store := w.store } := h
  cases op with
  | insertJob id request =>
    refine Store.commit_cases (I := fun s => Sound { w with store := s }) hsame fun s hs => ?_
    obtain ⟨honly,hfresh,hj,-⟩ := insertJob_spec hs
    exact h.insert honly hfresh hj
  | createTopup id chainId treasury signer amount =>
    refine Store.commit_cases (I := fun s => Sound { w with store := s }) hsame fun s hs => ?_
    obtain ⟨honly,hj,-⟩ := createTopup_spec hs
    refine h.jobsOnly (G := fun j => j) (fun _ => rfl) honly (by rw [hj,List.map_id']) ?_ ?_
    · exact fun j _ hq => hq
    · exact fun j _ hf => .inl hf
  | bindAttempt epoch a kind => cases ho
  | settleInclusion a inc confirmNow =>
    obtain ⟨hn,hmined⟩ := ho
    refine Store.commit_map_cases (I := fun s => Sound { w with store := s }) hsame fun st s hs => ?_
    rcases settleInclusion_spec hs with ⟨-,rfl⟩ | ⟨-,m,hm,rfl⟩
    · exact h
    · have hsm := h.settle hn hmined hm
      split
      · exact hsm.confirmInTx (hn.of_map (settleRow_same a inc) hm.attempts)
      · exact hsm
  | settleConfirmation a => exact h.confirmInTx ho
  | updateInclusionBlock a number hash receipt =>
    have hs := updateInclusionBlock_spec w.store a number hash receipt
    have hjob : ∀ j, (moveJob a number hash receipt j).status = j.status := by
      intro j
      simp only [moveJob,ownJob,rewrite]
      split
      · split <;> rfl
      · rfl
    refine h.of_maps (moveRow_gentle a number hash) (moveJob_id a number hash receipt)
      hs.attempts hs.jobs hs.slots ?_ ?_ ?_ ?_
    · intro r hr hm
      exact h.chain.included r hr (by simpa only [AttemptRow.mined,moveRow_status] using hm)
    · exact fun r hr hrep => h.chain.replaced r hr ((moveRow_status a number hash r).symm.trans hrep)
    · exact fun j _ hq => (hjob j).symm.trans hq
    · exact fun j _ hf => .inl ((hjob j).symm.trans hf)
  | demoteInclusion a => exact h.demote a
  | voidBinding epoch a mode disposition now => cases ho
  | failJob id allowed failure message revertData =>
    obtain rfl : allowed = [.queued] := ho
    exact h.failQueued id failure message revertData
  | requeueFront id now =>
    refine Store.commit_map_cases (I := fun s => Sound { w with store := s }) hsame fun n s hs => ?_
    obtain ⟨honly,-,hj⟩ := requeueFront_spec hs
    have hst : ∀ j, (rewrite (JobRow.whereIn id [.queued]) (fun j =>
        { j with requeueRank := -now, requeueCount := j.requeueCount + 1 }) j).status =
        j.status := by
      intro j
      refine rewrite_same JobRow.status ?_ j
      intro j _; rfl
    refine h.jobsOnly ?_ honly hj ?_ ?_
    · intro j
      refine rewrite_same JobRow.id ?_ j
      intro j _; rfl
    · exact fun j _ hq => (hst j).symm.trans hq
    · exact fun j _ hf => .inl ((hst j).symm.trans hf)
  | cancelQueued id => exact h.failQueued id _ _ _
  | acquire => cases ho

/-- A nonce is taken once and for all. -/
theorem Sound.mine (h : Sound w) {k : Slot} {m : Mined} (hm : m.Possible w k) :
    Sound { w with mined := Function.update w.mined k (some m) } := by
  have hnone : w.mined k = none := by
    cases m with
    | ours hash => exact hm.1
    | foreign => exact hm
  have hkeep : ∀ k' m', w.mined k' = some m' → Function.update w.mined k (some m) k' = some m' := by
    intro k' m' hk
    rw [Function.update_of_ne]
    · exact hk
    · rintro rfl
      rw [hnone] at hk
      cases hk
  refine ⟨⟨?_,h.chain.delivered,?_,?_,h.chain.dropped,h.chain.slots⟩,
    ⟨h.jobs.owner,h.jobs.home,h.jobs.queued,?_⟩,?_⟩
  · intro k' hash hk
    by_cases hkk : k' = k
    · subst hkk
      have hk' : Function.update w.mined k' (some m) k' = some (.ours hash) := hk
      rw [Function.update_self] at hk'
      obtain rfl := Option.some.inj hk'
      exact hm.2
    · exact h.chain.mined k' hash ((Function.update_of_ne hkk _ _).symm.trans hk)
  · exact fun r hr hrm => hkeep _ _ (h.chain.included r hr hrm)
  · intro r hr hrep
    obtain ⟨hash,hk⟩ := h.chain.replaced r hr hrep
    exact ⟨hash,hkeep _ _ hk⟩
  · intro j hj hf r hr hi hp
    refine (h.jobs.failed j hj hf r hr hi hp).imp_right ?_
    rintro ⟨m',hk,hne⟩
    exact ⟨m',hkeep _ _ hk,hne⟩
  · exact ⟨h.tasks.held,h.tasks.todo,h.tasks.pending,h.tasks.goal,h.tasks.fresh,h.tasks.first⟩

end Ops

section Binds

variable {w : World} {s : Store} {p : PairKey} {a : Attempt}

/-- A bind finds its slot free or takes over the one that is there. -/
theorem Bound.slots_kept {m : Store} {epoch : Int} {kind : BindKind} (h : Bound m epoch a kind s) :
    (∃ x ∈ s.nonceSlots.rows, x.slot = a.slot) ∧
      (∀ x ∈ m.nonceSlots.rows, x ∈ s.nonceSlots.rows) ∧
      (kind = .first → ∀ x ∈ m.nonceSlots.rows, x.slot ≠ a.slot) := by
  have hheld : m.slotOwnerId a.slot = some a.owner.id →
      ∃ x ∈ m.nonceSlots.rows, x.slot = a.slot := by
    intro ho
    obtain ⟨x,hx,-⟩ := Option.map_eq_some_iff.mp ho
    have hslot := List.find?_some hx
    exact ⟨x,List.mem_of_find?_eq_some hx,of_decide_eq_true hslot⟩
  have hs := h.slots
  cases kind with
  | first =>
    obtain ⟨hrows,hfresh⟩ := Table.insert_eq_some hs
    rw [hrows]
    exact ⟨⟨_,List.mem_append_right _ List.mem_cons_self,rfl⟩,
      fun x hx => List.mem_append_left _ hx,fun _ => hfresh⟩
  | replacement =>
    simp only [claimSlot] at hs
    split at hs
    · next ho =>
      rw [← Option.some.inj hs]
      exact ⟨hheld ho,fun _ hx => hx,fun hk => by cases hk⟩
    · cases hs
  | cancel =>
    simp only [claimSlot] at hs
    split at hs
    · next ho =>
      rw [← Option.some.inj hs]
      exact ⟨hheld ho,fun _ hx => hx,fun hk => by cases hk⟩
    · cases hs

/-- The owner of a new attempt is live afterwards. -/
theorem Bound.owner_live {m : Store} {epoch : Int} {kind : BindKind} (h : Bound m epoch a kind s)
    {j : JobRow} (hj : j ∈ m.jobs.rows) (ho : a.owner = .job j.id) :
    j.status ∈ kind.bindable ∧ (bindJob a kind j).status ∈ [JobStatus.sent,.cancelling] := by
  obtain ⟨j',hj',hid,hst⟩ := h.owner j.id ho
  obtain rfl := same_job hj hj' hid
  refine ⟨hst,?_⟩
  rw [bindJob,ownJob_of ho hst]
  cases kind with
  | first => exact List.mem_cons_self
  | replacement => exact hst
  | cancel => exact List.mem_cons_of_mem _ List.mem_cons_self

/-- The attempts of the owner that are not dropped sit where the new one goes. -/
theorem Sound.bind_home (h : Sound w) (ht : Traced w) {goal : Goal} {left : Nat}
    (hp : w.tasks p = .binding goal a left) (hb : Bound w.store w.epoch a goal.kind s)
    {r : AttemptRow} (hr : r ∈ w.store.txAttempts.rows) (hd : r.status ≠ .dropped) {i : JobId}
    (hi : r.jobId = some i) (ho : a.owner = .job i) : r.slot = a.slot := by
  have hflight : ∀ f ∈ goal.inFlight, r.slot = a.slot := by
    intro f hf
    have hin : f ∈ (w.tasks p).inFlight := by
      rw [hp]
      exact hf
    obtain ⟨a',ha',hown⟩ := (h.tasks.held p f hin).owner
    obtain ⟨r',hr',hid',hslot',-,hjob'⟩ := (ht.held p f hin a' ha').row ht
    have hd' := (h.tasks.held p f hin).alive a' ha' r' hr' hid'
    have hi' : r'.jobId = some i := by
      rw [hjob',hown,← h.tasks.goal p goal a left hp f hf,ho]
      rfl
    rw [h.jobs.home r hr r' hr' hd hd' i hi hi',hslot',← ht.goal p goal a left hp f hf]
    exact (ht.pending p a (by rw [hp]; rfl)).2.1.symm
  cases goal with
  | execute =>
    -- the job was queued, so all its attempts are dropped
    obtain ⟨j,hj,rfl,hst⟩ := hb.owner i ho
    exact absurd (h.jobs.queued j hj (List.mem_singleton.mp hst) r hr hi) hd
  | replace f => exact hflight f rfl
  | cancel f => exact hflight f rfl

/-- The rows after a bind: those from before, and the new one. -/
theorem Bound.row_cases {m : Store} {epoch : Int} {kind : BindKind} (h : Bound m epoch a kind s)
    {x : AttemptRow} (hx : x ∈ s.txAttempts.rows) :
    x ∈ m.txAttempts.rows ∨ x = .ofAttempt a := by
  rw [h.attempts] at hx
  simpa using hx

theorem Bound.row_kept {m : Store} {epoch : Int} {kind : BindKind} (h : Bound m epoch a kind s)
    {x : AttemptRow} (hx : x ∈ m.txAttempts.rows) : x ∈ s.txAttempts.rows := by
  rw [h.attempts]
  exact List.mem_append_left _ hx

/-- What a bind leaves of the database's invariant. -/
theorem Sound.commits_chain (h : Sound w) {goal : Goal}
    (hb : Bound w.store w.epoch a goal.kind s) :
    ChainSound { w with store := s, bound := a :: w.bound } := by
  obtain ⟨hslot,hkept,-⟩ := hb.slots_kept
  refine ⟨h.chain.mined,?_,?_,?_,?_,?_⟩
  · intro k hash hd
    obtain ⟨r,hr,hrest⟩ := h.chain.delivered k hash hd
    exact ⟨r,hb.row_kept hr,hrest⟩
  · intro x hx hm
    rcases hb.row_cases hx with hx | rfl
    · exact h.chain.included x hx hm
    · rcases hm with hm | hm <;> cases hm
  · intro x hx hrep
    rcases hb.row_cases hx with hx | rfl
    · exact h.chain.replaced x hx hrep
    · cases hrep
  · intro x hx hd
    rcases hb.row_cases hx with hx | rfl
    · exact h.chain.dropped x hx hd
    · cases hd
  · intro x hx hd
    rcases hb.row_cases hx with hx | rfl
    · obtain ⟨y,hy,hs⟩ := h.chain.slots x hx hd
      exact ⟨y,hkept y hy,hs⟩
    · exact hslot

/-- A job that is queued or failed afterwards is not the owner. -/
theorem Bound.not_owner {m : Store} {epoch : Int} {kind : BindKind} (h : Bound m epoch a kind s)
    {j : JobRow} (hj : j ∈ m.jobs.rows)
    (hst : (bindJob a kind j).status ∉ [JobStatus.sent,.cancelling]) :
    a.owner ≠ .job j.id ∧ bindJob a kind j = j := by
  have hne : a.owner ≠ .job j.id := fun ho => hst (h.owner_live hj ho).2
  exact ⟨hne,ownJob_other hne⟩

/-- What a bind leaves of the invariant of the jobs. -/
theorem Sound.commits_jobs (h : Sound w) (ht : Traced w) {goal : Goal} {left : Nat}
    (hp : w.tasks p = .binding goal a left) (hb : Bound w.store w.epoch a goal.kind s) :
    JobsSound { w with store := s, bound := a :: w.bound } := by
  have hjob : ∀ y ∈ s.jobs.rows, ∃ j ∈ w.store.jobs.rows, bindJob a goal.kind j = y := by
    rw [hb.jobs]
    exact fun _ => List.mem_map.mp
  have hjobId : ∀ i, (AttemptRow.ofAttempt a).jobId = some i → a.owner = .job i :=
    fun i hi => (AttemptRow.ofAttempt_isOf a).jobId_eq_some.mp hi
  refine ⟨?_,?_,?_,?_⟩
  · intro x hx i hi
    have hex : ∃ j ∈ w.store.jobs.rows, j.id = i := by
      rcases hb.row_cases hx with hx | rfl
      · exact h.jobs.owner x hx i hi
      · obtain ⟨j,hj,hid,-⟩ := hb.owner i (hjobId i hi)
        exact ⟨j,hj,hid⟩
    obtain ⟨j,hj,rfl⟩ := hex
    exact ⟨bindJob a goal.kind j,by rw [hb.jobs]; exact List.mem_map_of_mem hj,bindJob_id a _ j⟩
  · intro x hx x' hx' hd hd' i hi hi'
    rcases hb.row_cases hx with hx | hx <;> rcases hb.row_cases hx' with hx' | hx'
    · exact h.jobs.home x hx x' hx' hd hd' i hi hi'
    · -- the new attempt is of the nonce at which the job's live ones are
      subst hx'
      exact h.bind_home ht hp hb hx hd hi (hjobId i hi')
    · subst hx
      exact (h.bind_home ht hp hb hx' hd' hi' (hjobId i hi)).symm
    · rw [hx,hx']
  · intro y hy hq x hx hi
    obtain ⟨j,hj,rfl⟩ := hjob y hy
    -- a bind leaves the owner of its attempt sent or cancelling
    obtain ⟨hne,hsame⟩ := hb.not_owner hj (by rw [hq]; decide)
    rw [hsame] at hq hi
    rcases hb.row_cases hx with hx | rfl
    · exact h.jobs.queued j hj hq x hx hi
    · exact absurd (hjobId _ hi) hne
  · intro y hy hf x hx hi hpur
    obtain ⟨j,hj,rfl⟩ := hjob y hy
    obtain ⟨hne,hsame⟩ := hb.not_owner hj (by rw [hf]; decide)
    rw [hsame] at hf hi
    rcases hb.row_cases hx with hx | rfl
    · exact h.jobs.failed j hj hf x hx hi hpur
    · exact absurd (hjobId _ hi) hne

/-- What a bind leaves of the invariant of the tasks. -/
theorem Sound.commits_tasks (h : Sound w) (ht : Traced w) {goal : Goal} {left : Nat}
    (hp : w.tasks p = .binding goal a left) (hb : Bound w.store w.epoch a goal.kind s) :
    TasksSound { w with store := s, bound := a :: w.bound } := by
  obtain ⟨-,-,hfirst⟩ := hb.slots_kept
  -- delivered bytes have a row, and the hash of the new one is new
  have hnew : w.Harmless (.ofAttempt a) := by
    refine .inl fun hd => ?_
    obtain ⟨r,hr,-,hh⟩ := h.chain.delivered _ _ hd
    exact hb.fresh r hr (.inr (.inl hh))
  have halive : ∀ id, w.store.Alive id → s.Alive id := by
    intro id ha x hx hid
    rcases hb.row_cases hx with hx | rfl
    · exact ha x hx hid
    · intro hd
      cases hd
  refine ⟨?_,?_,?_,h.tasks.goal,?_,?_⟩
  · intro q f hf
    obtain ⟨h1,h2,h3⟩ := h.tasks.held q f hf
    exact ⟨fun b hb => halive _ (h1 b hb),h2,h3⟩
  · exact fun q g hg b hb => halive _ (h.tasks.todo q g hg b hb)
  · exact fun q b hb => halive _ (h.tasks.pending q b hb)
  · intro q f hf hfr x hx hs hair
    rcases hb.row_cases hx with hx | rfl
    · exact h.tasks.fresh q f hf hfr x hx hs hair
    · exact hnew
  · intro q b left' hq hex x hx hs
    rcases hb.row_cases hx with hx | rfl
    · obtain ⟨y,hy,hid⟩ := hex
      rcases hb.row_cases hy with hy | rfl
      · exact h.tasks.first q b left' hq ⟨y,hy,hid⟩ x hx hs
      · -- the first attempt of its nonce: whatever else is there was dropped
        obtain rfl := ht.apart p q a b (by rw [hp]; rfl) (by rw [hq]; rfl) hid
        obtain ⟨rfl,rfl,-⟩ : goal = .execute ∧ a = b ∧ left = left' := by simpa [hp] using hq
        refine h.chain.dropped x hx ?_
        by_contra hd
        obtain ⟨z,hz,hzs⟩ := h.chain.slots x hx hd
        exact hfirst rfl z hz (hzs.trans hs)
    · exact hnew

theorem Sound.commits (h : Sound w) (ht : Traced w) {goal : Goal} {left : Nat}
    (hp : w.tasks p = .binding goal a left) (hb : Bound w.store w.epoch a goal.kind s) :
    Sound { w with store := s, bound := a :: w.bound } :=
  ⟨h.commits_chain hb,h.commits_jobs ht hp hb,h.commits_tasks ht hp hb⟩

theorem PairKey.slot_pair {p q : PairKey} {n m : Nat} (h : p.slot n = q.slot m) : p = q := by
  obtain ⟨c,a⟩ := p
  obtain ⟨c',a'⟩ := q
  injection h with h₁ h₂ _
  exact congrArg₂ PairKey.mk h₁ h₂

theorem Activity.Rests.no_inFlight {t : Activity} (h : t.Rests) {f : InFlight} :
    f ∉ t.inFlight := by
  rw [h.inFlight]
  exact fun hf => by cases hf

theorem voidJob_cases (a : Attempt) (disposition : VoidDisposition) (now : Nat) (j : JobRow) :
    voidJob a disposition now j = j ∨ a.owner = .job j.id := by
  by_cases ho : a.owner = .job j.id
  · exact .inr ho
  · exact .inl (voidJob_other ho)

theorem dropRow_alive {k : Slot} {r : AttemptRow} (h : (dropRow k r).status ≠ .dropped) :
    (dropRow k r).status = r.status := by
  rw [dropRow_status] at h ⊢
  split
  · next hx => simp [hx] at h
  · rfl

theorem dropRow_dropped {k : Slot} {r : AttemptRow} (h : r.status = .dropped) :
    (dropRow k r).status = .dropped := by
  rw [dropRow_status,h]
  simp

end Binds

/-! ## Voiding a nonce -/

/-- A void of a nonce at which nothing can be mined, its task being done with it. An attempt of
the owner was there that is not dropped. -/
structure World.VoidsAt (w : World) (s : Store) (p : PairKey) (n : Nat) (a : Attempt)
    (mode : VoidMode) (disposition : VoidDisposition) (now : Nat) : Prop where
  voids : Voids w.store w.epoch a mode disposition now s
  slot : a.slot = p.slot n
  rests : (w.tasks p).Rests
  harmless : ∀ r ∈ w.store.txAttempts.rows, r.slot = a.slot → w.Harmless r
  owned : ∃ r ∈ w.store.txAttempts.rows, r.slot = a.slot ∧ r.jobId = a.owner.jobId ∧
    r.status ≠ .dropped

namespace World.VoidsAt

variable {w : World} {s : Store} {p q : PairKey} {n : Nat} {a : Attempt} {mode : VoidMode}
  {disposition : VoidDisposition} {now : Nat}

theorem row (hv : w.VoidsAt s p n a mode disposition now) :
    ∀ x ∈ s.txAttempts.rows, ∃ r ∈ w.store.txAttempts.rows, dropRow a.slot r = x := by
  rw [hv.voids.attempts]
  exact fun _ => List.mem_map.mp

theorem job (hv : w.VoidsAt s p n a mode disposition now) :
    ∀ y ∈ s.jobs.rows, ∃ j ∈ w.store.jobs.rows, voidJob a disposition now j = y := by
  rw [hv.voids.jobs]
  exact fun _ => List.mem_map.mp

/-- Nothing at the nonce was mined, so every attempt there is dropped now. -/
theorem gone (hv : w.VoidsAt s p n a mode disposition now) (h : ChainSound w) {r : AttemptRow}
    (hr : r ∈ w.store.txAttempts.rows) (hk : r.slot = a.slot) :
    (dropRow a.slot r).status = .dropped := by
  rw [dropRow_status]
  cases hst : r.status with
  | broadcast => simp [hk]
  | dropped => simp
  | included => exact absurd (h.included r hr (.inl hst)) (h.harmless (hv.harmless r hr hk))
  | confirmed => exact absurd (h.included r hr (.inr hst)) (h.harmless (hv.harmless r hr hk))
  | replaced =>
    obtain ⟨hash,hm⟩ := h.replaced r hr hst
    rw [hk] at hm
    exact absurd hm (h.not_ours hv.harmless hash)

/-- What is not dropped now was not before, and is of another nonce. -/
theorem kept (hv : w.VoidsAt s p n a mode disposition now) (h : ChainSound w) {r : AttemptRow}
    (hr : r ∈ w.store.txAttempts.rows) (hd : (dropRow a.slot r).status ≠ .dropped) :
    r.status ≠ .dropped ∧ r.slot ≠ a.slot :=
  ⟨fun hx => hd (dropRow_dropped hx),fun hk => hd (hv.gone h hr hk)⟩

/-- The attempts of the owner that were not dropped sat at the nonce. -/
theorem owner_gone (hv : w.VoidsAt s p n a mode disposition now) (h : Sound w) {j : JobRow}
    (ho : a.owner = .job j.id) {r : AttemptRow} (hr : r ∈ w.store.txAttempts.rows)
    (hi : r.jobId = some j.id) : (dropRow a.slot r).status = .dropped := by
  obtain ⟨r₀,hr₀,hs₀,hi₀,hd₀⟩ := hv.owned
  by_contra hd
  obtain ⟨hd',hk⟩ := hv.kept h.chain hr hd
  refine hk ((h.jobs.home r hr r₀ hr₀ hd' hd₀ j.id hi ?_).trans hs₀)
  rw [hi₀,ho]
  rfl

theorem chain (hv : w.VoidsAt s p n a mode disposition now) (h : ChainSound w) :
    ChainSound { w with store := s } := by
  have hsame := dropRow_same a.slot
  refine ⟨h.mined,?_,?_,?_,?_,?_⟩
  · intro k hash hd
    obtain ⟨r,hr,hk,hh⟩ := h.delivered k hash hd
    exact ⟨dropRow a.slot r,by rw [hv.voids.attempts]; exact List.mem_map_of_mem hr,
      (hsame r).slot.trans hk,(hsame r).txHash.trans hh⟩
  · intro x hx hm
    obtain ⟨r,hr,rfl⟩ := hv.row x hx
    have hd : (dropRow a.slot r).status ≠ .dropped := by
      rcases hm with hm | hm <;> rw [hm] <;> decide
    show w.mined (dropRow a.slot r).slot = some (.ours (dropRow a.slot r).txHash)
    rw [(hsame r).slot,(hsame r).txHash]
    exact h.included r hr (by simpa only [AttemptRow.mined,dropRow_alive hd] using hm)
  · intro x hx hrep
    obtain ⟨r,hr,rfl⟩ := hv.row x hx
    rw [(hsame r).slot]
    exact h.replaced r hr ((dropRow_alive (by rw [hrep]; decide)).symm.trans hrep)
  · intro x hx hd
    obtain ⟨r,hr,rfl⟩ := hv.row x hx
    refine (World.harmless_same (w := w) (hsame r)).mpr ?_
    rw [dropRow_status] at hd
    split at hd
    · next hk => exact hv.harmless r hr hk.1
    · exact h.dropped r hr hd
  · intro x hx hd
    obtain ⟨r,hr,rfl⟩ := hv.row x hx
    obtain ⟨hd',hk⟩ := hv.kept h hr hd
    obtain ⟨y,hy,hys⟩ := h.slots r hr hd'
    refine ⟨y,?_,hys.trans (hsame r).slot.symm⟩
    -- only the slot of the nonce is freed
    rw [hv.voids.slots]
    refine List.mem_filter.mpr ⟨hy,?_⟩
    simp [hys,hk]

theorem jobs (hv : w.VoidsAt s p n a mode disposition now) (h : Sound w) :
    JobsSound { w with store := s } := by
  have hsame := dropRow_same a.slot
  refine ⟨?_,?_,?_,?_⟩
  · intro x hx i hi
    obtain ⟨r,hr,rfl⟩ := hv.row x hx
    obtain ⟨j,hj,rfl⟩ := h.jobs.owner r hr i ((hsame r).jobId ▸ hi)
    exact ⟨voidJob a disposition now j,by rw [hv.voids.jobs]; exact List.mem_map_of_mem hj,
      voidJob_id a disposition now j⟩
  · intro x hx x' hx' hd hd' i hi hi'
    obtain ⟨r,hr,rfl⟩ := hv.row x hx
    obtain ⟨r',hr',rfl⟩ := hv.row x' hx'
    rw [(hsame r).slot,(hsame r').slot]
    exact h.jobs.home r hr r' hr' (hv.kept h.chain hr hd).1 (hv.kept h.chain hr' hd').1 i
      ((hsame r).jobId ▸ hi) ((hsame r').jobId ▸ hi')
  · intro y hy hq x hx hi
    obtain ⟨j,hj,rfl⟩ := hv.job y hy
    obtain ⟨r,hr,rfl⟩ := hv.row x hx
    rw [voidJob_id,(hsame r).jobId] at hi
    rcases voidJob_cases a disposition now j with hx | ho
    · rw [hx] at hq
      exact dropRow_dropped (h.jobs.queued j hj hq r hr hi)
    · exact hv.owner_gone h ho hr hi
  · intro y hy hf x hx hi hp
    obtain ⟨j,hj,rfl⟩ := hv.job y hy
    obtain ⟨r,hr,rfl⟩ := hv.row x hx
    rw [voidJob_id,(hsame r).jobId] at hi
    rw [(hsame r).purpose] at hp
    rcases voidJob_cases a disposition now j with hx | ho
    · rw [hx] at hf
      exact (h.jobs.failed j hj hf r hr hi hp).imp dropRow_dropped
        (World.taken_same (w := w) (hsame r)).mpr
    · exact .inl (hv.owner_gone h ho hr hi)

/-- What other pairs hold sits at their own slots. -/
theorem alive (hv : w.VoidsAt s p n a mode disposition now) (ht : Traced w) {m : Nat}
    {b : Attempt} (hq : q ≠ p) (hcom : w.Committed (q.slot m) b) (ha : w.store.Alive b.id) :
    s.Alive b.id := by
  intro x hx hid hd
  obtain ⟨r,hr,rfl⟩ := hv.row x hx
  rw [(dropRow_same a.slot r).id] at hid
  obtain ⟨r',hr',hid',hslot',-⟩ := hcom.row ht
  obtain rfl := id_unique hr hr' (hid.trans hid'.symm)
  rw [dropRow_status] at hd
  split at hd
  · next hx => exact hq (PairKey.slot_pair (hslot'.symm.trans (hx.1.trans hv.slot)))
  · exact ha r hr hid hd

/-- The pair of the nonce holds nothing. -/
theorem busy (hv : w.VoidsAt s p n a mode disposition now)
    (h : (w.tasks q).inFlight ≠ none ∨ (w.tasks q).pending ≠ none ∨ (w.tasks q).todo ≠ []) :
    q ≠ p := by
  rintro rfl
  rcases h with h | h | h
  · exact h hv.rests.inFlight
  · exact h hv.rests.free
  · exact h hv.rests.todo

theorem tasks (hv : w.VoidsAt s p n a mode disposition now) (h : TasksSound w) (ht : Traced w) :
    TasksSound { w with store := s } := by
  have hsame := dropRow_same a.slot
  refine ⟨?_,?_,?_,h.goal,?_,?_⟩
  · intro q f hf
    have hq := hv.busy (.inl (by rw [Option.mem_def.mp hf]; simp))
    obtain ⟨h1,h2,h3⟩ := h.held q f hf
    exact ⟨fun b hb => hv.alive ht hq (ht.held q f hf b hb) (h1 b hb),h2,h3⟩
  · intro q g hg b hb
    have hq := hv.busy (.inr (.inr (List.ne_nil_of_mem hg)))
    obtain ⟨m,hm⟩ := ht.todo q g hg
    exact hv.alive ht hq (hm b hb) (h.todo q g hg b hb)
  · intro q b hb x hx hid hd
    have hq := hv.busy (.inr (.inl (by rw [hb]; simp)))
    obtain ⟨r,hr,rfl⟩ := hv.row x hx
    rw [(hsame r).id] at hid
    obtain ⟨c,hc,hcid,hof,-⟩ := ht.rows r hr
    -- a row under the id of an attempt that is being bound is that attempt
    obtain ⟨-,hbs,hbown⟩ := ht.pending q b hb
    obtain rfl := hbown c hc (hcid.symm.trans hid)
    rw [dropRow_status] at hd
    split at hd
    · next hx =>
      exact hq (PairKey.slot_pair (hbs.symm.trans (hof.slot.symm.trans (hx.1.trans hv.slot))))
    · exact h.pending q c hb r hr hid hd
  · intro q f hf hfr x hx hk hair
    obtain ⟨r,hr,rfl⟩ := hv.row x hx
    rw [(hsame r).slot] at hk
    rw [(hsame r).id] at hair
    exact (World.harmless_same (w := w) (hsame r)).mpr (h.fresh q f hf hfr r hr hk hair)
  · intro q b left hq hex x hx hk
    obtain ⟨r,hr,rfl⟩ := hv.row x hx
    rw [(hsame r).slot] at hk
    refine (World.harmless_same (w := w) (hsame r)).mpr (h.first q b left hq ?_ r hr hk)
    obtain ⟨y,hy,hid⟩ := hex
    obtain ⟨r',hr',rfl⟩ := hv.row y hy
    exact ⟨r',hr',(hsame r').id.symm.trans hid⟩

end World.VoidsAt

theorem Sound.voids {w : World} {s : Store} {p : PairKey} {n : Nat} {a : Attempt} {mode : VoidMode}
    {disposition : VoidDisposition} {now : Nat} (h : Sound w) (ht : Traced w)
    (hv : w.VoidsAt s p n a mode disposition now) : Sound { w with store := s } :=
  ⟨hv.chain h.chain,hv.jobs h,hv.tasks h.tasks ht⟩

end GumEngine
