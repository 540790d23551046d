import GumEngine.Laws.Consistency
import GumEngine.Chain.Check

/-!
# The summary of a mined job and its receipt

A mined job keeps the node's receipt and, beside it, what `inclusion_from` derived from a
receipt. A settlement writes both, a block move replaces the receipt and the block alone.
-/

namespace GumEngine
open Relational Transition

/-- The columns that a block move leaves alone. -/
structure ExecResult where
  outcome : Outcome
  gasUsed : Nat
  effectiveGasPrice : Nat
  feePaid : U256
  l1Fee : Option U256
deriving DecidableEq

def Inclusion.result (inc : Inclusion) : ExecResult :=
  ⟨inc.outcome,inc.gasUsed,inc.effectiveGasPrice,inc.feePaid,inc.l1Fee⟩

/-- The result columns of `j` are those of `e`. -/
structure JobRow.Shows (j : JobRow) (e : ExecResult) : Prop where
  outcome : j.outcome = some e.outcome
  gasUsed : j.gasUsed = some e.gasUsed
  effectiveGasPrice : j.effectiveGasPrice = some e.effectiveGasPrice
  feePaid : j.feePaid = some e.feePaid
  l1Fee : j.l1Fee = e.l1Fee

/-- The summary of `j` is what `inclusion_from` makes of its receipt, for the attempt of
row `r`. -/
def JobRow.Summarises (chains : ChainId → ChainCtx) (j : JobRow) (r : AttemptRow) : Prop :=
  ∃ receipt inc, j.receipt = some receipt ∧
    inclusionAt (chains r.chainId) r.gasLimit receipt = some inc ∧ j.Shows inc.result ∧
    j.blockNumber = some inc.blockNumber ∧ j.blockHash = some inc.blockHash

/-- How the pipeline fills the arguments in: inclusions and blocks come from receipts,
under the gas limit of the stored attempt. -/
def Op.Derived (chains : ChainId → ChainCtx) (s : Store) : Op → Prop
  | settleInclusion a inc _ => inclusionFrom (chains a.chainId) a inc.receipt = some inc ∧
      ∀ r ∈ s.txAttempts.rows, r.id = a.id → r.gasLimit = a.gasLimit
  | updateInclusionBlock a number hash receipt =>
      ∃ inc ∈ inclusionFrom (chains a.chainId) a receipt,
        number = inc.blockNumber ∧ hash = inc.blockHash
  | _ => True

/-- The pipeline on a given set of chains. -/
def receipts (chains : ChainId → ChainCtx) : Machine Store Op :=
  pipeline.restrict fun s op => op.Derived chains s

/-- A block move of an included job brings a receipt with the result of the one it
replaces. -/
def Op.SameResult (chains : ChainId → ChainCtx) (s : Store) : Op → Prop
  | updateInclusionBlock a _ _ receipt =>
    a.purpose = .job → ∀ j ∈ s.jobs.rows, a.owner = .job j.id → j.status = .included →
      ∀ r ∈ s.txAttempts.rows, r.jobId = some j.id → r.status = .included → ∀ old ∈ j.receipt,
      (inclusionAt (chains r.chainId) r.gasLimit receipt).map Inclusion.result =
        (inclusionAt (chains r.chainId) r.gasLimit old).map Inclusion.result
  | _ => True

instance (chains : ChainId → ChainCtx) (s : Store) : DecidablePred (Op.Derived chains s)
  | .settleInclusion a inc _ => inferInstanceAs (Decidable
      (inclusionFrom (chains a.chainId) a inc.receipt = some inc ∧
        ∀ r ∈ s.txAttempts.rows, r.id = a.id → r.gasLimit = a.gasLimit))
  | .updateInclusionBlock a number hash receipt => inferInstanceAs (Decidable
      (∃ inc ∈ inclusionFrom (chains a.chainId) a receipt,
        number = inc.blockNumber ∧ hash = inc.blockHash))
  | .insertJob _ _ | .createTopup _ _ _ _ _ | .bindAttempt _ _ _ | .settleConfirmation _
  | .demoteInclusion _ | .voidBinding _ _ _ _ _ | .failJob _ _ _ _ _ | .requeueFront _ _
  | .cancelQueued _ | .acquire => .isTrue trivial

instance (chains : ChainId → ChainCtx) (s : Store) : DecidablePred (Op.SameResult chains s)
  | .updateInclusionBlock a _ _ receipt => inferInstanceAs (Decidable
      (a.purpose = .job → ∀ j ∈ s.jobs.rows, a.owner = .job j.id → j.status = .included →
        ∀ r ∈ s.txAttempts.rows, r.jobId = some j.id → r.status = .included → ∀ old ∈ j.receipt,
        (inclusionAt (chains r.chainId) r.gasLimit receipt).map Inclusion.result =
          (inclusionAt (chains r.chainId) r.gasLimit old).map Inclusion.result))
  | .settleInclusion _ _ _ | .insertJob _ _ | .createTopup _ _ _ _ _ | .bindAttempt _ _ _
  | .settleConfirmation _ | .demoteInclusion _ | .voidBinding _ _ _ _ _ | .failJob _ _ _ _ _
  | .requeueFront _ _ | .cancelQueued _ | .acquire => .isTrue trivial

instance (chains : ChainId → ChainCtx) (s : Store) (op : Op) :
    Decidable ((receipts chains).allowed s op) :=
  inferInstanceAs (Decidable (pipeline.allowed s op ∧ op.Derived chains s))

/-! ## What a mined job and its attempt say about each other -/

/-- `Q` relates every job to the mined attempt that executes it. -/
def MinedPairs (Q : JobRow → AttemptRow → Prop) (s : Store) : Prop :=
  ∀ r ∈ s.txAttempts.rows, ∀ j ∈ s.jobs.rows, r.jobId = some j.id → r.purpose = .job → r.mined →
    Q j r

/-- The columns of a job that an inclusion writes. -/
structure JobRow.SameSummary (j j' : JobRow) : Prop where
  outcome : j'.outcome = j.outcome
  blockNumber : j'.blockNumber = j.blockNumber
  blockHash : j'.blockHash = j.blockHash
  gasUsed : j'.gasUsed = j.gasUsed
  effectiveGasPrice : j'.effectiveGasPrice = j.effectiveGasPrice
  feePaid : j'.feePaid = j.feePaid
  l1Fee : j'.l1Fee = j.l1Fee
  receipt : j'.receipt = j.receipt

/-- The columns of an attempt that stay while it is mined in one block. -/
structure AttemptRow.SameMined (r r' : AttemptRow) : Prop where
  chainId : r'.chainId = r.chainId
  gasLimit : r'.gasLimit = r.gasLimit
  blockNumber : r'.blockNumber = r.blockNumber
  blockHash : r'.blockHash = r.blockHash

/-- `Q` only reads these columns, and `op` keeps it where it writes them. -/
structure Carries (Q : JobRow → AttemptRow → Prop) (s : Store) (op : Op) : Prop where
  congr : ∀ {j j' r r'}, Q j r → j.SameSummary j' → r.SameMined r' → Q j' r'
  settle : ∀ {a inc now}, op = .settleInclusion a inc now → ∀ r ∈ s.txAttempts.rows,
    r.id = a.id → r.status = .broadcast → r.IsOf a → ∀ j : JobRow,
    Q (j.toIncluded inc) (settleRow a inc r)
  move : ∀ {a number hash receipt}, op = .updateInclusionBlock a number hash receipt →
    a.purpose = .job → ∀ r ∈ s.txAttempts.rows, ∀ j ∈ s.jobs.rows, a.owner = .job j.id →
    j.status = .included → r.jobId = some j.id → r.purpose = .job → r.status = .included →
    Q j r → Q (j.moveTo number hash receipt) (moveRow a number hash r)

section Steps

variable {Q : JobRow → AttemptRow → Prop} {s s' : Store} {a : Attempt} {op : Op}

/-- A mined attempt that executes its job keeps it `included` or `confirmed`. -/
theorem Consistent.host_mined (hc : Consistent s) {r : AttemptRow} {j : JobRow}
    (hr : r ∈ s.txAttempts.rows) (hj : j ∈ s.jobs.rows) (hi : r.jobId = some j.id)
    (hp : r.purpose = .job) (hm : r.mined) : j.status = .included ∨ j.status = .confirmed := by
  have hf := (hc.fits r hr j hj hi hm.active).2
  rw [hp] at hf
  rcases hm with hm | hm <;> rw [hm] at hf
  · exact .inl (List.mem_singleton.mp hf)
  · exact .inr (List.mem_singleton.mp hf)

theorem JobRow.SameSummary.rfl' (j : JobRow) : j.SameSummary j :=
  ⟨rfl,rfl,rfl,rfl,rfl,rfl,rfl,rfl⟩

/-- Rows and jobs are rewritten in place; a mined attempt was mined before, and it and its
job keep their columns. -/
theorem MinedPairs.of_maps {F : AttemptRow → AttemptRow} {G : JobRow → JobRow}
    (h : MinedPairs Q s) (hQ : Carries Q s op) (hF : ∀ r, (F r).Same r)
    (hm : ∀ r, (F r).mined → r.mined ∧ r.SameMined (F r)) (hG : ∀ j, (G j).id = j.id)
    (ha : s'.txAttempts.rows = s.txAttempts.rows.map F)
    (hj : s'.jobs.rows = s.jobs.rows.map G)
    (hkeep : ∀ r ∈ s.txAttempts.rows, ∀ j ∈ s.jobs.rows, r.jobId = some j.id →
      r.purpose = .job → (F r).mined → j.SameSummary (G j)) : MinedPairs Q s' := by
  intro r' hr' j' hj' hi hp hmined
  rw [ha] at hr'
  rw [hj] at hj'
  obtain ⟨r,hr,rfl⟩ := List.mem_map.mp hr'
  obtain ⟨j,hjm,rfl⟩ := List.mem_map.mp hj'
  have hi' : r.jobId = some j.id := by rw [← (hF r).jobId,hi,hG]
  have hp' : r.purpose = .job := (hF r).purpose ▸ hp
  obtain ⟨hm',hsame⟩ := hm r hmined
  exact hQ.congr (h r hr j hjm hi' hp' hm') (hkeep r hr j hjm hi' hp' hmined) hsame

theorem ownJob_summary {st : List JobStatus} {f : JobRow → JobRow} (j : JobRow)
    (hf : a.owner = .job j.id → j.status ∈ st → j.SameSummary (f j)) :
    j.SameSummary (ownJob a st f j) := by
  by_cases h : a.owner = .job j.id ∧ j.status ∈ st
  · rw [ownJob_of h.1 h.2]
    exact hf h.1 h.2
  · rw [ownJob_of_not h]
    exact .rfl' j

theorem settleRow_sameMined {inc : Inclusion} {r : AttemptRow} (h : r.status ≠ .broadcast) :
    r.SameMined (settleRow a inc r) := by
  have hrow : settleRow a inc r = r := by
    simp [settleRow,rewrite,AttemptRow.whereIn,AttemptRow.whereSibling,h]
  rw [hrow]
  exact ⟨rfl,rfl,rfl,rfl⟩

theorem confirmRow_sameMined (a : Attempt) (r : AttemptRow) : r.SameMined (confirmRow a r) := by
  simp only [confirmRow,rewrite]
  split <;> split <;> exact ⟨rfl,rfl,rfl,rfl⟩

theorem demoteRow_sameMined {r : AttemptRow} (h : ¬ (r.id = a.id ∧ r.status = .included)) :
    r.SameMined (demoteRow a r) := by
  have hrow : demoteRow a r = r := by
    simp only [demoteRow,rewrite,AttemptRow.whereIn,List.mem_singleton,Bool.and_eq_true,
      decide_eq_true_eq,if_neg h]
  rw [hrow]
  exact ⟨rfl,rfl,rfl,rfl⟩

theorem dropRow_sameMined (k : Slot) (r : AttemptRow) : r.SameMined (dropRow k r) := by
  simp only [dropRow,rewrite]
  split <;> exact ⟨rfl,rfl,rfl,rfl⟩

theorem MinedPairs.settle {inc : Inclusion} {now : Bool} (h : MinedPairs Q s)
    (hQ : Carries Q s (.settleInclusion a inc now)) (hc : Consistent s) (hn : a.Names s)
    (hs : Settles s a inc s') : MinedPairs Q s' := by
  intro r' hr' j' hj' hi hp hmined
  rw [hs.attempts] at hr'
  rw [hs.jobs] at hj'
  obtain ⟨r,hr,rfl⟩ := List.mem_map.mp hr'
  obtain ⟨j,hjm,rfl⟩ := List.mem_map.mp hj'
  have hsame := settleRow_same a inc r
  have hi' : r.jobId = some j.id := by rw [← hsame.jobId,hi,includeJob_id]
  have hp' : r.purpose = .job := hsame.purpose ▸ hp
  by_cases hm : r.mined
  · -- its job is not waiting for an inclusion
    have hkeep : includeJob a inc j = j := by
      refine includeJob_other ?_
      rintro ⟨ho,hpa⟩
      obtain ⟨k,hk,hkid,hst⟩ := hs.owner hpa j.id ho
      rw [same_job hjm hk hkid] at hst
      rcases hc.host_mined hr hjm hi' hp' hm with hj | hj <;> simp [hj] at hst
    have hst : r.status ≠ .broadcast := by
      rcases hm with hm | hm <;> simp [hm]
    rw [hkeep]
    exact hQ.congr (h r hr j hjm hi' hp' hm) (.rfl' j) (settleRow_sameMined hst)
  · -- the row that is mined now is the one of `a`
    obtain ⟨hid,hb⟩ : r.id = a.id ∧ r.status = .broadcast := by
      unfold AttemptRow.mined at hm hmined
      rw [settleRow_status] at hmined
      by_cases hb : r.status = .broadcast
      · refine ⟨?_,hb⟩
        by_contra hne
        rw [if_pos hb,if_neg hne] at hmined
        split at hmined <;> simp at hmined
      · rw [if_neg hb] at hmined
        exact absurd hmined hm
    have hof := hn r hr hid
    have ho : a.owner = .job j.id := hof.jobId_eq_some.mp hi'
    have hpa : a.purpose = .job := hof.purpose ▸ hp'
    obtain ⟨k,hk,hkid,hst⟩ := hs.owner hpa j.id ho
    rw [same_job hjm hk hkid] at hst
    have hrow : includeJob a inc j = j.toIncluded inc := by
      rw [includeJob,if_pos hpa,ownJob_of ho hst]
    rw [hrow]
    exact hQ.settle rfl r hr hid hb hof j

theorem MinedPairs.confirm (h : MinedPairs Q s) (hQ : Carries Q s op) (hs : Confirms s a s') :
    MinedPairs Q s' := by
  refine h.of_maps hQ (confirmRow_same a) ?_ (confirmJob_id a) hs.attempts hs.jobs ?_
  · intro r hm
    refine ⟨?_,confirmRow_sameMined a r⟩
    unfold AttemptRow.mined at hm ⊢
    rw [confirmRow_status] at hm
    split at hm
    · next hin => exact .inl hin.2
    · exact hm
  · intro r _ j _ _ _ _
    unfold confirmJob
    split
    · exact ownJob_summary j fun _ _ => ⟨rfl,rfl,rfl,rfl,rfl,rfl,rfl,rfl⟩
    · exact ownJob_summary j fun _ _ => ⟨rfl,rfl,rfl,rfl,rfl,rfl,rfl,rfl⟩

/-- The rules about rows only speak about the store they were given for, so a confirmation
in the same transaction needs only the first of them. -/
theorem MinedPairs.confirmInTx (h : MinedPairs Q s) (a : Attempt)
    (hQ : ∀ {j j' r r'}, Q j r → j.SameSummary j' → r.SameMined r' → Q j' r') :
    MinedPairs Q (GumEngine.confirmInTx s a).2 := by
  rcases confirmInTx_spec s a with hc | ⟨-,hc⟩
  · rwa [hc]
  · have hcarry : Carries Q s .acquire := ⟨hQ,fun h => (nomatch h),fun h => (nomatch h)⟩
    exact h.confirm hcarry hc

/-- The one place where the receipt and the block change and the result stays. -/
theorem MinedPairs.move {number : Nat} {hash : B256} {receipt : Receipt} (h : MinedPairs Q s)
    (hQ : Carries Q s (.updateInclusionBlock a number hash receipt)) (hc : Consistent s)
    (hn : a.Names s) (hs : Moves s a number hash receipt s') : MinedPairs Q s' := by
  intro r' hr' j' hj' hi hp hmined
  rw [hs.attempts] at hr'
  rw [hs.jobs] at hj'
  obtain ⟨r,hr,rfl⟩ := List.mem_map.mp hr'
  obtain ⟨j,hjm,rfl⟩ := List.mem_map.mp hj'
  have hrow := moveRow_same a number hash r
  have hi' : r.jobId = some j.id := by rw [← hrow.jobId,hi,moveJob_id]
  have hp' : r.purpose = .job := hrow.purpose ▸ hp
  have hm : r.mined := by
    unfold AttemptRow.mined at hmined ⊢
    rwa [moveRow_status] at hmined
  have hold := h r hr j hjm hi' hp' hm
  by_cases hown : a.purpose = .job ∧ a.owner = .job j.id ∧ j.status ∈ [JobStatus.included]
  · obtain ⟨hpa,ho,hst⟩ := hown
    have hjob : moveJob a number hash receipt j = j.moveTo number hash receipt := by
      rw [moveJob,if_pos hpa,ownJob_of ho hst]
    have hin := List.mem_singleton.mp hst
    have hrin : r.status = .included := by
      refine hm.resolve_right fun hcf => ?_
      have hf := (hc.fits r hr j hjm hi' hm.active).2
      rw [hp',hcf,hin] at hf
      simp [hosts] at hf
    rw [hjob]
    exact hQ.move rfl hpa r hr j hjm ho hin hi' hp' hrin hold
  · have hkeep : moveJob a number hash receipt j = j := by
      unfold moveJob
      split
      · next hpa => exact ownJob_of_not fun hx => hown ⟨hpa,hx⟩
      · rfl
    -- the row is not the one of `a`, whose job would be included
    have hrow' : moveRow a number hash r = r := by
      unfold moveRow rewrite
      refine if_neg ?_
      intro hw
      simp only [AttemptRow.whereIn,List.mem_singleton,Bool.and_eq_true,decide_eq_true_eq] at hw
      obtain ⟨hid,hst⟩ := hw
      have hof := hn r hr hid
      refine hown ⟨hof.purpose ▸ hp',hof.jobId_eq_some.mp hi',?_⟩
      have hf := (hc.fits r hr j hjm hi' hm.active).2
      rw [hp',hst] at hf
      exact hf
    rw [hkeep,hrow']
    exact hold

theorem MinedPairs.demote (h : MinedPairs Q s) (hQ : Carries Q s op) (hc : Consistent s)
    (hn : a.Names s) (hs : Demotes s a s') : MinedPairs Q s' := by
  obtain ⟨x,hx,hxid,hxst,-⟩ := hs.gas
  have hback : ∀ r, (demoteRow a r).mined → ¬ (r.id = a.id ∧ r.status = .included) ∧ r.mined := by
    intro r hm
    unfold AttemptRow.mined at hm ⊢
    rw [demoteRow_status] at hm
    split at hm
    · simp at hm
    · next hno => exact ⟨hno,hm⟩
  refine h.of_maps hQ (demoteRow_same a) ?_ (demoteJob_id a) hs.attempts hs.jobs ?_
  · intro r hm
    obtain ⟨hno,hm⟩ := hback r hm
    exact ⟨hm,demoteRow_sameMined hno⟩
  · intro r hr j hj hi hp hm
    unfold demoteJob
    split
    · next hpa =>
      refine ownJob_summary j fun ho _ => ?_
      -- the demoted attempt is the one mined attempt of the job
      obtain ⟨hno,hm⟩ := hback r hm
      have hxi : x.jobId = some j.id := (hn x hx hxid).jobId_eq_some.mpr ho
      have he : r = x := hc.only_active hx hr hxi hi (.inl hxst) hm.active
      exact absurd ⟨he ▸ hxid,he ▸ hxst⟩ hno
    · exact .rfl' j

theorem MinedPairs.void {epoch : Int} {mode : VoidMode} {disposition : VoidDisposition}
    {now : Nat} (h : MinedPairs Q s) (hQ : Carries Q s op)
    (hs : Voids s epoch a mode disposition now s') : MinedPairs Q s' := by
  refine h.of_maps hQ (dropRow_same a.slot) ?_ (voidJob_id a disposition now) hs.attempts
    hs.jobs ?_
  · intro r hm
    refine ⟨?_,dropRow_sameMined a.slot r⟩
    unfold AttemptRow.mined at hm ⊢
    rw [dropRow_status] at hm
    split at hm
    · simp at hm
    · exact hm
  · intro r _ j _ _ _ _
    unfold voidJob
    split
    · exact ownJob_summary j fun _ _ => ⟨rfl,rfl,rfl,rfl,rfl,rfl,rfl,rfl⟩
    · exact ownJob_summary j fun _ _ => ⟨rfl,rfl,rfl,rfl,rfl,rfl,rfl,rfl⟩

theorem MinedPairs.bind {epoch : Int} {kind : BindKind} (h : MinedPairs Q s)
    (hQ : Carries Q s op) (hs : Bound s epoch a kind s') : MinedPairs Q s' := by
  intro r hr j' hj' hi hp hm
  rw [hs.attempts] at hr
  rw [hs.jobs] at hj'
  obtain ⟨j,hj,rfl⟩ := List.mem_map.mp hj'
  rw [bindJob_id] at hi
  rcases List.mem_append.mp hr with hr | hr
  · refine hQ.congr (h r hr j hj hi hp hm) ?_ ⟨rfl,rfl,rfl,rfl⟩
    refine ownJob_summary j fun _ _ => ?_
    cases kind <;> exact ⟨rfl,rfl,rfl,rfl,rfl,rfl,rfl,rfl⟩
  · rw [List.mem_singleton.mp hr] at hm
    simp [AttemptRow.mined,AttemptRow.ofAttempt] at hm

/-- Jobs that keep their ids and columns. -/
theorem MinedPairs.jobs {p : JobRow → Bool} {f : JobRow → JobRow} (h : MinedPairs Q s)
    (hQ : Carries Q s op) (hs : JobsOnly s s')
    (hj : s'.jobs.rows = s.jobs.rows.map (rewrite p f))
    (hid : ∀ j : JobRow, (f j).id = j.id) (hf : ∀ j : JobRow, j.SameSummary (f j)) :
    MinedPairs Q s' := by
  refine h.of_maps (F := fun r => r) hQ AttemptRow.Same.rfl' (fun _ hm => ⟨hm,rfl,rfl,rfl,rfl⟩)
    (rewrite_same JobRow.id fun j _ => hid j) (by rw [hs.attempts,List.map_id']) hj ?_
  intro r _ j _ _ _ _
  unfold rewrite
  split
  · exact hf j
  · exact .rfl' j

/-- Whatever the pipeline does to the store. -/
theorem MinedPairs.step (h : MinedPairs Q s) (hc : Consistent s) (hi : op.Issued s)
    (hQ : Carries Q s op) : MinedPairs Q (op.apply s) := by
  have hfail : ∀ id failure message revertData,
      MinedPairs Q (GumEngine.failJob s id [.queued] failure message revertData).2 := by
    intro id failure message revertData
    obtain ⟨-,hj⟩ := failJob_spec (s := s) id failure message revertData
      (show ∀ x ∈ [JobStatus.queued], x.isTerminal = false by decide)
    refine h.jobs hQ (failJob_only s _ _ _ _ _) hj (fun _ => rfl) ?_
    exact fun _ => ⟨rfl,rfl,rfl,rfl,rfl,rfl,rfl,rfl⟩
  cases op with
  | insertJob id request =>
    refine Store.commit_cases h fun s' hs => ?_
    obtain ⟨hs,hfresh,hj,-⟩ := insertJob_spec hs
    intro r hr j hm hri
    rw [hs.attempts] at hr
    rw [hj] at hm
    rcases List.mem_append.mp hm with hm | hm
    · exact h r hr j hm hri
    · obtain ⟨k,hk,hkid⟩ := hc.owner r hr _ hri
      rw [List.mem_singleton.mp hm] at hkid
      exact absurd hkid (hfresh k hk)
  | createTopup id chainId treasury signer amount =>
    refine Store.commit_cases h fun s' hs => ?_
    obtain ⟨hs,hj,-⟩ := createTopup_spec hs
    unfold MinedPairs
    rw [hs.attempts,hj]
    exact h
  | bindAttempt epoch a kind =>
    exact Store.commit_cases h fun s' hs => h.bind hQ (bindAttempt_spec hs)
  | settleInclusion a inc confirmNow =>
    refine Store.commit_map_cases h fun st s' hs => ?_
    rcases settleInclusion_spec hs with ⟨-,rfl⟩ | ⟨-,m,hm,rfl⟩
    · exact h
    · have hm' := h.settle hQ hc hi hm
      split
      · exact hm'.confirmInTx a hQ.congr
      · exact hm'
  | settleConfirmation a => exact h.confirmInTx a hQ.congr
  | updateInclusionBlock a number hash receipt =>
    exact h.move hQ hc hi (updateInclusionBlock_spec s a number hash receipt)
  | demoteInclusion a =>
    show MinedPairs Q (GumEngine.demoteInclusion s a).2
    rcases demoteInclusion_spec s a with hs | ⟨-,hs⟩
    · rwa [hs]
    · exact h.demote hQ hc hi hs
  | voidBinding epoch a mode disposition now =>
    exact Store.commit_cases h fun s' hs => h.void hQ (voidBinding_spec hs)
  | failJob id allowed failure message revertData =>
    obtain rfl : allowed = [.queued] := hi
    exact hfail _ _ _ _
  | requeueFront id now =>
    refine Store.commit_map_cases h fun n s' hs => ?_
    obtain ⟨hs,-,hj⟩ := requeueFront_spec hs
    refine h.jobs hQ hs hj (fun _ => rfl) ?_
    exact fun _ => ⟨rfl,rfl,rfl,rfl,rfl,rfl,rfl,rfl⟩
  | cancelQueued id => exact hfail _ _ _ _
  | acquire => exact h

end Steps

/-! ## The receipt of a mined job -/

section Receipts

variable {chains : ChainId → ChainCtx} {s : Store} {op : Op}

theorem JobRow.Summarises.congr {j j' : JobRow} {r r' : AttemptRow} (h : j.Summarises chains r)
    (hj : j.SameSummary j') (hr : r.SameMined r') : j'.Summarises chains r' := by
  obtain ⟨receipt,inc,hreceipt,hi,hs,hn,hh⟩ := h
  refine ⟨receipt,inc,hj.receipt.trans hreceipt,by rw [hr.chainId,hr.gasLimit]; exact hi,?_,
    hj.blockNumber.trans hn,hj.blockHash.trans hh⟩
  exact ⟨hj.outcome.trans hs.outcome,hj.gasUsed.trans hs.gasUsed,
    hj.effectiveGasPrice.trans hs.effectiveGasPrice,hj.feePaid.trans hs.feePaid,
    hj.l1Fee.trans hs.l1Fee⟩

theorem settleRow_gasLimit (a : Attempt) (inc : Inclusion) (r : AttemptRow) :
    (settleRow a inc r).gasLimit = r.gasLimit := by
  simp only [settleRow,rewrite]
  split <;> split <;> rfl

theorem moveRow_gasLimit (a : Attempt) (number : Nat) (hash : B256) (r : AttemptRow) :
    (moveRow a number hash r).gasLimit = r.gasLimit := by
  simp only [moveRow,rewrite]
  split <;> rfl

/-- A settlement writes a summary; a move keeps it as long as the result is the same. -/
theorem Op.carries_summary (hd : op.Derived chains s) (hsame : op.SameResult chains s) :
    Carries (fun j r => j.Summarises chains r) s op := by
  refine ⟨JobRow.Summarises.congr,?_,?_⟩
  · rintro a inc now rfl r hr hid - hof j
    obtain ⟨hinc,hgas⟩ := hd
    have hchain : r.chainId = a.chainId := congrArg Slot.chainId hof.slot
    refine ⟨inc.receipt,inc,rfl,?_,⟨rfl,rfl,rfl,rfl,rfl⟩,rfl,rfl⟩
    rw [(settleRow_same a inc r).chainId,hchain,settleRow_gasLimit,hgas r hr hid]
    exact hinc
  · rintro a number hash receipt rfl hpa r hr j hj ho hin hi hp hrin hold
    obtain ⟨old,inc,hold,hinc,hshow,-,-⟩ := hold
    obtain ⟨moved,hmoved,hnumber,hhash⟩ := hd
    have hres := hsame hpa j hj ho hin r hr hi hrin old (by rw [hold]; rfl)
    rw [hinc] at hres
    obtain ⟨inc',hinc',hsum⟩ := Option.map_eq_some_iff.mp hres
    have hblock : inc'.blockNumber = moved.blockNumber ∧ inc'.blockHash = moved.blockHash := by
      unfold inclusionFrom inclusionAt at hmoved
      unfold inclusionAt at hinc'
      split at hmoved
      · simp_all only [Option.mem_def,Option.some.injEq]
        subst hmoved hinc'
        exact ⟨rfl,rfl⟩
      · cases hmoved
    refine ⟨receipt,inc',rfl,?_,?_,?_,?_⟩
    · rw [(moveRow_same a number hash r).chainId,moveRow_gasLimit]
      exact hinc'
    · rw [hsum]
      exact ⟨hshow.outcome,hshow.gasUsed,hshow.effectiveGasPrice,hshow.feePaid,hshow.l1Fee⟩
    · rw [hblock.1,← hnumber]
      rfl
    · rw [hblock.2,← hhash]
      rfl

end Receipts

/-- A mined job and the attempt that executed it say what its receipt says. -/
def ReceiptLaw (chains : ChainId → ChainCtx) (s : Store) : Prop :=
  ∀ j ∈ s.jobs.rows, j.status = .included ∨ j.status = .confirmed →
    ∃ r : AttemptRow, r.Executes s j ∧ r.mined ∧ j.Summarises chains r

/-- As long as a transaction that moves to another block has the same result there, the
summary of every mined job is the one of its stored receipt. -/
theorem receipt_summarised {chains : ChainId → ChainCtx} {s : Store}
    (h : ((receipts chains).restrict fun s op => op.SameResult chains s).Reaches Store.empty s) :
    ReceiptLaw chains s := by
  have hboth : Consistent s ∧ MinedPairs (fun j r => j.Summarises chains r) s := by
    refine h.invariant (I := fun s => Consistent s ∧
      MinedPairs (fun j r => j.Summarises chains r) s) ⟨.empty,fun r hr => by cases hr⟩ ?_
    rintro s op ⟨hc,hs⟩ ⟨⟨hi,hd⟩,hsame⟩
    exact ⟨hc.step hi,hs.step hc hi (Op.carries_summary hd hsame)⟩
  obtain ⟨hc,hs⟩ := hboth
  rintro j hj (hst | hst)
  · obtain ⟨r,hr,hi,hp,hrst⟩ := hc.mined j hj .included (by rw [hst]; rfl)
    exact ⟨r,⟨hr,hi,hp⟩,.inl hrst,hs r hr j hj hi hp (.inl hrst)⟩
  · obtain ⟨r,hr,hi,hp,hrst⟩ := hc.mined j hj .confirmed (by rw [hst]; rfl)
    exact ⟨r,⟨hr,hi,hp⟩,.inr hrst,hs r hr j hj hi hp (.inr hrst)⟩

def Sample.everywhere (_ : ChainId) : ChainCtx := Sample.ethereum

/-- The transaction of a job is mined, and the fork that wins mines it with this receipt. -/
def moveOps (receipt : Receipt) : List Op :=
  let a := Sample.attempt 3 0 .job (.job 1)
  [.insertJob 1 Sample.request,.bindAttempt 0 a .first,
    .settleInclusion a (Sample.inclusion 3 10 100) false,
    .updateInclusionBlock a 11 101 receipt]

theorem receipt_summarised_moved :
    ∃ s, ((receipts Sample.everywhere).restrict
        fun s op => op.SameResult Sample.everywhere s).Reaches Store.empty s ∧
      s.jobs.rows.map (fun j => (j.status,j.blockHash)) = [(.included,some 101)] ∧
      ReceiptLaw Sample.everywhere s := by
  have hrun : ((receipts Sample.everywhere).restrict
      fun s op => op.SameResult Sample.everywhere s).Runs Store.empty
      (moveOps (Sample.receipt 3 11 101)) := by decide
  exact ⟨_,hrun.reaches,by decide,receipt_summarised hrun.reaches⟩

/-- On the other fork the transaction reverts with half the gas. -/
def revertedReceipt : Receipt := ⟨3,some 11,some 101,some 0,10500,some 10,[]⟩

/-- The job then reports a success next to the receipt of a revert. -/
theorem moved_receipt_contradicts :
    ∃ s, (receipts Sample.everywhere).Reaches Store.empty s ∧ ¬ ReceiptLaw Sample.everywhere s := by
  have hrun : (receipts Sample.everywhere).Runs Store.empty (moveOps revertedReceipt) := by decide
  refine ⟨_,hrun.reaches,?_⟩
  intro hlaw
  have hrows : ∀ j ∈ ((moveOps revertedReceipt).foldl (receipts Sample.everywhere).step
      Store.empty).jobs.rows, j.status = .included ∧ j.receipt = some revertedReceipt ∧
      j.outcome = some .success := by decide
  have hone : ∃ j, j ∈ ((moveOps revertedReceipt).foldl (receipts Sample.everywhere).step
      Store.empty).jobs.rows := ⟨_,List.mem_singleton.mpr rfl⟩
  obtain ⟨j,hj⟩ := hone
  obtain ⟨hst,hrec,hout⟩ := hrows j hj
  obtain ⟨r,-,-,receipt,inc,hr,hinc,hshow,-,-⟩ := hlaw j hj (.inl hst)
  rw [hrec] at hr
  cases hr
  have hrev : inc.outcome = .reverted := by
    have := Option.some.inj hinc
    rw [← this]
    rfl
  have hsucc := hshow.outcome
  rw [hout,Inclusion.result,hrev] at hsucc
  cases hsucc

end GumEngine
