import GumEngine.Laws.Consistency

/-!
# Counters equal their history

The gas ledger is added to on inclusion and taken from on demotion; the rollup counts
terminal jobs. Both equal what a recount of the stored rows gives.
-/

namespace GumEngine
open Relational Transition

def AttemptRow.gasKey (r : AttemptRow) : GasKey := ⟨r.chainId,r.signer,r.purpose⟩

/-- The attempts a gas counter stands for. -/
def Store.minedOf (s : Store) (key : GasKey) : List AttemptRow :=
  s.txAttempts.rows.filter fun r => r.mined ∧ r.gasKey = key

/-- The ledger row of `key`; a missing row counts as zero. -/
def Store.gasOf (s : Store) (key : GasKey) : GasRow :=
  (s.gasLedger.rows.find? fun g => g.key = key).getD ⟨key,0,0,0⟩

/-- What the ledger row of `key` should be. -/
def Store.recount (s : Store) (key : GasKey) : GasRow where
  key := key
  txCount := (s.minedOf key).length
  gasUsed := ((s.minedOf key).map fun r => r.gasUsed.getD 0).sum
  feePaid := ((s.minedOf key).map fun r => r.feePaid.getD 0).sum

def Store.rollupOf (s : Store) (key : RollupKey) : Nat :=
  (s.statsRollup.rows.find? fun r => r.key = key).elim 0 (·.count)

/-- The terminal jobs a rollup counter stands for. -/
def Store.endedOf (s : Store) (key : RollupKey) : List JobRow :=
  s.jobs.rows.filter fun j => j.rollupKey = some key

/-- Settlements and demotions name the attempt they are about. -/
def Op.Named (s : Store) : Op → Prop
  | settleInclusion a _ _ | settleConfirmation a | updateInclusionBlock a _ _ _
  | demoteInclusion a => a.Names s
  | failJob _ allowed _ _ _ => ∀ st ∈ allowed, st.isTerminal = false
  | _ => True

theorem Op.Named.failsLive {s : Store} {op : Op} (h : op.Named s) : op.FailsLive := by
  cases op <;> first | exact h | trivial

def ledger : Machine Store Op where
  allowed s op := op.Named s
  step s op := op.apply s

section Gas

variable {s s' : Store} {key : GasKey} {a : Attempt}

/-- What a row contributes to the counter of `key`; `v` is 1, its gas or its fee. -/
def weight (key : GasKey) (v : AttemptRow → Nat) (r : AttemptRow) : Nat :=
  if r.mined ∧ r.gasKey = key then v r else 0

def Store.tally (s : Store) (key : GasKey) (v : AttemptRow → Nat) : Nat :=
  (s.txAttempts.rows.map (weight key v)).sum

theorem sum_minedOf (v : AttemptRow → Nat) : ((s.minedOf key).map v).sum = s.tally key v := by
  rw [Store.minedOf,sum_filter]
  simp only [decide_eq_true_eq]
  rfl

theorem recount_eq (s : Store) (key : GasKey) : s.recount key =
    ⟨key,s.tally key fun _ => 1,s.tally key fun r => r.gasUsed.getD 0,
      s.tally key fun r => r.feePaid.getD 0⟩ := by
  simp only [← sum_minedOf]
  simp [Store.recount]

theorem weight_of_not_mined {v : AttemptRow → Nat} {r : AttemptRow} (h : ¬ r.mined) :
    weight key v r = 0 := if_neg fun hx => h hx.1

/-- A row whose mined state and amounts are kept weighs the same. -/
theorem weight_congr {v : AttemptRow → Nat} {r r' : AttemptRow} (hs : r'.Same r)
    (hm : r'.mined ↔ r.mined) (hv : r.mined → v r' = v r) : weight key v r' = weight key v r := by
  have hk : r'.gasKey = r.gasKey := by
    rw [AttemptRow.gasKey,AttemptRow.gasKey,hs.chainId,hs.signer,hs.purpose]
  unfold weight
  rw [hk]
  by_cases h : r.mined
  · rw [hv h]
    simp only [hm]
  · rw [if_neg fun hx => h (hm.mp hx.1),if_neg fun hx => h hx.1]

theorem clash_refl (r : AttemptRow) : r.clash r := .inl rfl

theorem tally_one {F : AttemptRow → AttemptRow} {v : AttemptRow → Nat} {r₀ : AttemptRow}
    (ha : s'.txAttempts.rows = s.txAttempts.rows.map F) (hr₀ : r₀ ∈ s.txAttempts.rows)
    (h : ∀ r ∈ s.txAttempts.rows, r ≠ r₀ → weight key v (F r) = weight key v r) :
    s'.tally key v + weight key v r₀ = s.tally key v + weight key v (F r₀) := by
  unfold Store.tally
  rw [ha]
  exact sum_map_one (s.txAttempts.nodup clash_refl) hr₀ h

theorem tally_same {F : AttemptRow → AttemptRow} {v : AttemptRow → Nat}
    (ha : s'.txAttempts.rows = s.txAttempts.rows.map F)
    (h : ∀ r ∈ s.txAttempts.rows, weight key v (F r) = weight key v r) :
    s'.tally key v = s.tally key v := by
  unfold Store.tally
  rw [ha]
  exact sum_map_same h

theorem gasOf_key (s : Store) (key : GasKey) : (s.gasOf key).key = key := by
  unfold Store.gasOf
  cases hf : s.gasLedger.rows.find? (fun g => g.key = key) with
  | none => rfl
  | some g => simpa using List.find?_some hf

theorem gasOf_addGas_other {k : GasKey} {c g f : Int}
    (h : s'.gasLedger = addGas s.gasLedger k c g f) (hne : key ≠ k) :
    s'.gasOf key = s.gasOf key := by
  unfold Store.gasOf
  rw [h,addGas,Keyed.find_upsert,if_neg hne]

/-- The clamp of a fresh row acts on a negative count only, the others on negative sums. -/
theorem gasOf_addGas {k : GasKey} {c g f : Int}
    (h : s'.gasLedger = addGas s.gasLedger k c g f)
    (hc : 0 ≤ c ∨ ∃ row ∈ s.gasLedger.rows, row.key = k) :
    s'.gasOf k = ⟨k,(s.gasOf k).txCount + c,((s.gasOf k).gasUsed + g).toNat,
      ((s.gasOf k).feePaid + f).toNat⟩ := by
  have hk := gasOf_key s k
  unfold Store.gasOf at hk ⊢
  rw [h,addGas,Keyed.find_upsert,if_pos rfl]
  cases hf : s.gasLedger.rows.find? (fun r => r.key = k) with
  | none =>
    rcases hc with hc | ⟨row,hr,hrk⟩
    · simp [max_eq_left hc]
    · simpa [hrk] using List.find?_eq_none.mp hf row hr
  | some row =>
    rw [hf] at hk
    simpa using hk

/-- What was added for a key can be taken back in full. -/
theorem gasOf_add_sub {m : Store} {k : GasKey} {u f : Nat}
    (h1 : m.gasLedger = addGas s.gasLedger k 1 u f)
    (h2 : s'.gasLedger = addGas m.gasLedger k (-1) (-u) (-f)) : s'.gasOf key = s.gasOf key := by
  by_cases hk : key = k
  · subst hk
    have hrow : ∃ row ∈ m.gasLedger.rows, row.key = key := by
      rw [h1]
      exact Keyed.upsert_mem _ _ _ _
    rw [gasOf_addGas h2 (.inr hrow),gasOf_addGas h1 (.inl (by decide))]
    have hkey := gasOf_key s key
    cases hg : s.gasOf key with
    | mk k' c' u' f' =>
      rw [hg] at hkey
      simp only [GasRow.mk.injEq]
      exact ⟨hkey.symm,by omega,by omega,by omega⟩
  · rw [gasOf_addGas_other h2 hk,gasOf_addGas_other h1 hk]

/-- Every ledger row equals a recount of the mined attempts. -/
def GasExact (s : Store) : Prop := ∀ key, s.gasOf key = s.recount key

theorem GasExact.of_tally (h : GasExact s) (hg : s'.gasLedger = s.gasLedger)
    (ht : ∀ key, s'.recount key = s.recount key) : GasExact s' := by
  intro key
  rw [ht,← h key,Store.gasOf,Store.gasOf,hg]

/-- A change that adds no row to the mined ones and takes none, nor alters an amount. -/
theorem GasExact.still {F : AttemptRow → AttemptRow} (h : GasExact s)
    (hg : s'.gasLedger = s.gasLedger) (ha : s'.txAttempts.rows = s.txAttempts.rows.map F)
    (hF : ∀ r, (F r).Same r) (hm : ∀ r, (F r).mined ↔ r.mined)
    (hv : ∀ r, (F r).gasUsed = r.gasUsed ∧ (F r).feePaid = r.feePaid) : GasExact s' := by
  refine h.of_tally hg fun key => ?_
  have ht : ∀ v : AttemptRow → Nat, (∀ r, v (F r) = v r) → s'.tally key v = s.tally key v :=
    fun v hv => tally_same ha fun r _ => weight_congr (hF r) (hm r) fun _ => hv r
  rw [recount_eq,recount_eq,ht _ fun _ => rfl,ht (fun r => r.gasUsed.getD 0) ?_,
    ht (fun r => r.feePaid.getD 0) ?_]
  · intro r
    rw [(hv r).2]
  · intro r
    rw [(hv r).1]

theorem GasExact.bind {epoch : Int} {kind : BindKind} (h : GasExact s)
    (hs : Bound s epoch a kind s') : GasExact s' := by
  refine h.of_tally hs.gas fun key => ?_
  have ht : ∀ v, s'.tally key v = s.tally key v := by
    intro v
    unfold Store.tally
    rw [hs.attempts,List.map_append,List.sum_append]
    simp [weight,AttemptRow.mined,AttemptRow.ofAttempt]
  rw [recount_eq,recount_eq,ht,ht,ht]

theorem GasExact.confirm (h : GasExact s) (hs : Confirms s a s') : GasExact s' := by
  refine h.still hs.gas hs.attempts (confirmRow_same a) ?_ ?_
  · intro r
    unfold AttemptRow.mined
    rw [confirmRow_status]
    split
    · next hx => simp [hx.2]
    · rfl
  · intro r
    unfold confirmRow rewrite
    constructor <;> (repeat' split) <;> rfl

theorem GasExact.move {number : Nat} {hash : B256} {receipt : Receipt} (h : GasExact s)
    (hs : Moves s a number hash receipt s') : GasExact s' := by
  refine h.still hs.gas hs.attempts (moveRow_same a number hash) ?_ ?_
  · intro r
    unfold AttemptRow.mined
    rw [moveRow_status]
  · intro r
    unfold moveRow rewrite
    split <;> exact ⟨rfl,rfl⟩

theorem GasExact.void {epoch : Int} {mode : VoidMode} {disposition : VoidDisposition} {now : Nat}
    (h : GasExact s) (hs : Voids s epoch a mode disposition now s') : GasExact s' := by
  refine h.still hs.gas hs.attempts (dropRow_same a.slot) ?_ ?_
  · intro r
    unfold AttemptRow.mined
    rw [dropRow_status]
    split
    · next hx => simp [hx.2]
    · rfl
  · intro r
    unfold dropRow rewrite
    split <;> exact ⟨rfl,rfl⟩

theorem AttemptRow.IsOf.gasKey {r : AttemptRow} (h : r.IsOf a) :
    r.gasKey = ⟨a.chainId,a.signer,a.purpose⟩ := by
  have hs := h.slot
  unfold AttemptRow.slot Attempt.slot at hs
  injection hs with hc hsig _
  rw [AttemptRow.gasKey,hc,hsig,h.purpose]

theorem GasExact.settle {inc : Inclusion} (h : GasExact s) (hn : a.Names s)
    (hs : Settles s a inc s') : GasExact s' := by
  obtain ⟨r₀,hr₀,hid₀,hb₀⟩ := hs.found
  have hk₀ := (hn r₀ hr₀ hid₀).gasKey
  have hF₀ : settleRow a inc r₀ = r₀.toIncluded inc := by
    simp [settleRow,rewrite,AttemptRow.whereIn,AttemptRow.whereSibling,hid₀,hb₀,
      AttemptRow.toIncluded]
  -- every other row is as mined as before
  have hrest : ∀ key v, ∀ r ∈ s.txAttempts.rows, r ≠ r₀ →
      weight key v (settleRow a inc r) = weight key v r := by
    intro key v r hr hne
    have hid : r.id ≠ a.id := fun hid => hne (id_unique hr hr₀ (hid.trans hid₀.symm))
    by_cases hb : r.status = .broadcast
    · rw [weight_of_not_mined,weight_of_not_mined]
      · simp [AttemptRow.mined,hb]
      · unfold AttemptRow.mined
        rw [settleRow_status,if_pos hb,if_neg hid]
        split <;> simp
    · have hsame : settleRow a inc r = r := by
        simp [settleRow,rewrite,AttemptRow.whereIn,AttemptRow.whereSibling,hid,hb]
      rw [hsame]
  have htally : ∀ key v, s'.tally key v =
      s.tally key v + weight key v (r₀.toIncluded inc) := by
    intro key v
    have h1 := tally_one hs.attempts hr₀ (hrest key v)
    have h0 : weight key v r₀ = 0 := weight_of_not_mined (by simp [AttemptRow.mined,hb₀])
    rw [hF₀] at h1
    omega
  have hw : ∀ key v, weight key v (r₀.toIncluded inc) =
      if key = ⟨a.chainId,a.signer,a.purpose⟩ then v (r₀.toIncluded inc) else 0 := by
    intro key v
    have hgk : (r₀.toIncluded inc).gasKey = ⟨a.chainId,a.signer,a.purpose⟩ := hk₀
    unfold weight
    rw [hgk]
    simp [AttemptRow.mined,AttemptRow.toIncluded,eq_comm]
  intro key
  have hkey := h key
  rw [recount_eq] at hkey ⊢
  rw [htally,htally,htally,hw,hw,hw]
  by_cases hkk : key = ⟨a.chainId,a.signer,a.purpose⟩
  · subst hkk
    rw [gasOf_addGas hs.gas (.inl (by decide)),hkey]
    simp only [if_pos,AttemptRow.toIncluded,Option.getD_some]
    congr 1
  · rw [gasOf_addGas_other hs.gas hkk,hkey]
    simp [hkk]

/-- A mined attempt is part of the counter of its key. -/
theorem GasExact.covers (h : GasExact s) {r : AttemptRow} (hr : r ∈ s.txAttempts.rows)
    (hm : r.mined) : ∃ g ∈ s.gasLedger.rows, g.key = r.gasKey ∧ g = s.recount r.gasKey ∧
      1 ≤ g.txCount ∧ r.gasUsed.getD 0 ≤ g.gasUsed ∧ r.feePaid.getD 0 ≤ g.feePaid := by
  have hle : ∀ v, v r ≤ s.tally r.gasKey v := by
    intro v
    have hmem : weight r.gasKey v r ∈ s.txAttempts.rows.map (weight r.gasKey v) :=
      List.mem_map_of_mem hr
    have hsum := List.le_sum_of_mem hmem
    rwa [weight,if_pos ⟨hm,rfl⟩] at hsum
  have hkey := h r.gasKey
  cases hf : s.gasLedger.rows.find? (fun g => g.key = r.gasKey) with
  | none =>
    rw [Store.gasOf,hf,recount_eq] at hkey
    have := hle fun _ => 1
    have hz := congrArg GasRow.txCount hkey
    simp only [Option.getD_none] at hz
    omega
  | some g =>
    rw [Store.gasOf,hf,Option.getD_some] at hkey
    refine ⟨g,List.mem_of_find?_eq_some hf,by simpa using List.find?_some hf,hkey,?_⟩
    rw [hkey,recount_eq]
    refine ⟨?_,hle fun r => r.gasUsed.getD 0,hle fun r => r.feePaid.getD 0⟩
    have := hle fun _ => 1
    dsimp only
    omega

theorem GasExact.demote (h : GasExact s) (hn : a.Names s) (hs : Demotes s a s') :
    GasExact s' := by
  obtain ⟨r₀,hr₀,hid₀,hin₀,hgas⟩ := hs.gas
  have hm₀ : r₀.mined := .inl hin₀
  have hk₀ := (hn r₀ hr₀ hid₀).gasKey
  have hrest : ∀ key v, ∀ r ∈ s.txAttempts.rows, r ≠ r₀ →
      weight key v (demoteRow a r) = weight key v r := by
    intro key v r hr hne
    have hid : r.id ≠ a.id := fun hid => hne (id_unique hr hr₀ (hid.trans hid₀.symm))
    rw [demoteRow,rewrite_of_not (by simp [AttemptRow.whereIn,hid])]
  have htally : ∀ key v, s'.tally key v + weight key v r₀ = s.tally key v := by
    intro key v
    have h1 := tally_one hs.attempts hr₀ (hrest key v)
    have h0 : weight key v (demoteRow a r₀) = 0 := by
      refine weight_of_not_mined ?_
      unfold AttemptRow.mined
      rw [demoteRow_status,if_pos ⟨hid₀,hin₀⟩]
      simp
    omega
  have hw : ∀ key v, weight key v r₀ =
      if key = ⟨a.chainId,a.signer,a.purpose⟩ then v r₀ else 0 := by
    intro key v
    unfold weight
    rw [hk₀]
    simp [hm₀,eq_comm]
  intro key
  have hkey := h key
  have ht1 := htally key fun _ => 1
  have ht2 := htally key fun r => r.gasUsed.getD 0
  have ht3 := htally key fun r => r.feePaid.getD 0
  rw [hw] at ht1 ht2 ht3
  rw [recount_eq] at hkey ⊢
  by_cases hkk : key = ⟨a.chainId,a.signer,a.purpose⟩
  · obtain ⟨g,hg,hgk,-⟩ := h.covers hr₀ hm₀
    rw [hk₀] at hgk
    subst hkk
    rw [if_pos rfl] at ht1 ht2 ht3
    rw [gasOf_addGas hgas (.inr ⟨g,hg,hgk⟩),hkey]
    congr 1 <;> dsimp only <;> omega
  · rw [if_neg hkk] at ht1 ht2 ht3
    rw [gasOf_addGas_other hgas hkk,hkey,← ht1,← ht2,← ht3]
    rfl

theorem GasExact.step (h : GasExact s) {op : Op} (hi : op.Named s) : GasExact (op.apply s) := by
  have honly : ∀ {s'}, JobsOnly s s' → GasExact s' := by
    intro s' hs
    refine h.of_tally hs.gas fun key => ?_
    rw [Store.recount,Store.minedOf,hs.attempts]
    rfl
  have hconfirm : ∀ m a, GasExact m → GasExact (confirmInTx m a).2 := by
    intro m a hm
    rcases confirmInTx_spec m a with hc | ⟨-,hc⟩
    · rwa [hc]
    · exact hm.confirm hc
  cases op with
  | insertJob id request =>
    exact Store.commit_cases h fun s' hs => honly (insertJob_spec hs).1
  | createTopup id chainId treasury signer amount =>
    exact Store.commit_cases h fun s' hs => honly (createTopup_spec hs).1
  | bindAttempt epoch a kind =>
    exact Store.commit_cases h fun s' hs => h.bind (bindAttempt_spec hs)
  | settleInclusion a inc confirmNow =>
    refine Store.commit_map_cases h fun st s' hs => ?_
    rcases settleInclusion_spec hs with ⟨-,rfl⟩ | ⟨-,m,hm,rfl⟩
    · exact h
    · have hc := h.settle hi hm
      split
      · exact hconfirm m a hc
      · exact hc
  | settleConfirmation a => exact hconfirm s a h
  | updateInclusionBlock a number hash receipt =>
    exact h.move (updateInclusionBlock_spec s a number hash receipt)
  | demoteInclusion a =>
    show GasExact (GumEngine.demoteInclusion s a).2
    rcases demoteInclusion_spec s a with hd | ⟨-,hd⟩
    · rwa [hd]
    · exact h.demote hi hd
  | voidBinding epoch a mode disposition now =>
    exact Store.commit_cases h fun s' hs => h.void (voidBinding_spec hs)
  | failJob id allowed failure message revertData => exact honly (failJob_only s _ _ _ _ _)
  | requeueFront id now =>
    exact Store.commit_map_cases h fun n s' hs => honly (requeueFront_spec hs).1
  | cancelQueued id => exact honly (failJob_only s _ _ _ _ _)
  | acquire => exact h

end Gas

section Rollup

variable {s s' : Store} {key : RollupKey}

/-- Every rollup counter equals a recount of the ended jobs. -/
def RollupExact (s : Store) : Prop := ∀ key, s.rollupOf key = (s.endedOf key).length

def ended (key : RollupKey) (j : JobRow) : Nat := if j.rollupKey = some key then 1 else 0

theorem length_endedOf : (s.endedOf key).length = (s.jobs.rows.map (ended key)).sum := by
  have h := sum_filter (fun j => decide (JobRow.rollupKey j = some key)) (fun _ => 1) s.jobs.rows
  simp only [decide_eq_true_eq] at h
  rw [show s.jobs.rows.map (ended key) = s.jobs.rows.map
    (fun j => if j.rollupKey = some key then 1 else 0) from rfl,← h]
  simp [Store.endedOf]

theorem ended_of_live {j : JobRow} (h : j.status.isTerminal = false) : ended key j = 0 := by
  refine if_neg ?_
  unfold JobRow.rollupKey
  cases hst : j.status <;> simp_all [JobStatus.isTerminal]

theorem rollupOf_bump {k : RollupKey} (h : s'.statsRollup = bumpRollup s.statsRollup k) :
    s'.rollupOf key = s.rollupOf key + if key = k then 1 else 0 := by
  unfold Store.rollupOf
  rw [h,bumpRollup,Keyed.find_upsert]
  split
  · next hk =>
    cases s.statsRollup.rows.find? fun r => r.key = key with
    | none => rfl
    | some r => rfl
  · rfl

/-- Replacing a live job's row moves each count by what the new row adds. -/
theorem length_endedOf_put {j j' : JobRow} (hj : j ∈ s.jobs.rows)
    (hlive : j.status.isTerminal = false)
    (jobs : s'.jobs.rows = Keyed.put JobRow.id s.jobs.rows j j') :
    (s'.endedOf key).length = (s.endedOf key).length + ended key j' := by
  rw [length_endedOf,length_endedOf,jobs]
  have hsum := sum_map_one (w := ended key) (F := rewrite (fun x => x.id = j.id) fun _ => j')
    (s.jobs.nodup fun _ => rfl) hj (fun x hx hne => by
      rw [rewrite_of_not]
      simpa using fun hid => hne (Keyed.eq_of_key s.jobs hx hj hid))
  rw [ended_of_live hlive,rewrite_of (by simp)] at hsum
  exact hsum

theorem RollupExact.step (h : RollupExact s) (he : JobsEffect s s') : RollupExact s' := by
  intro key
  have hsame : s'.statsRollup = s.statsRollup → s'.rollupOf key = s.rollupOf key := by
    intro hr
    rw [Store.rollupOf,Store.rollupOf,hr]
  cases he with
  | none jobs deliveries rollup =>
    rw [hsame rollup,h key,Store.endedOf,Store.endedOf,jobs]
  | insert id request fresh jobs deliveries rollup =>
    rw [hsame rollup,h key,length_endedOf,length_endedOf,jobs,List.map_append,List.sum_append]
    simp [ended,JobRow.rollupKey,JobRow.new]
  | quiet j j' mem move jobs deliveries rollup =>
    rw [hsame rollup,h key,length_endedOf_put mem move.before jobs,ended_of_live move.after]
    rfl
  | emits event j j' mem move jobs deliveries rollup =>
    rw [length_endedOf_put mem move.before jobs,← h key]
    cases hk : j'.rollupKey with
    | none =>
      rw [hk] at rollup
      rw [hsame rollup,ended,hk]
      simp
    | some k =>
      rw [hk] at rollup
      rw [rollupOf_bump rollup,ended,hk]
      simp [eq_comm]

end Rollup

/-- Every counter equals the recount of the stored rows, and no sum that a demotion of an
included attempt clamps at zero is negative. -/
theorem totals_recounted {s : Store} (h : ledger.Reaches Store.empty s) :
    (∀ key, s.gasOf key = s.recount key) ∧
    (∀ key, s.rollupOf key = (s.endedOf key).length) ∧
    ∀ r ∈ s.txAttempts.rows, r.status = .included →
      ∃ g ∈ s.gasLedger.rows, g.key = r.gasKey ∧ 0 ≤ g.txCount + -1 ∧
        0 ≤ (g.gasUsed : Int) + -(r.gasUsed.getD 0) ∧
        0 ≤ (g.feePaid : Int) + -(r.feePaid.getD 0) := by
  have hgas : GasExact s := h.invariant (fun _ => rfl) fun _ _ hs hi => hs.step hi
  have hrollup : RollupExact s := h.invariant (fun _ => rfl) fun _ _ hs hi =>
    Op.outbox_rule (fun _ _ => RollupExact.step) hi.failsLive hs
  refine ⟨hgas,hrollup,?_⟩
  intro r hr hin
  obtain ⟨g,hg,hk,-,hc,hu,hf⟩ := hgas.covers hr (.inl hin)
  have hf' := Int.ofNat_le.mpr hf
  exact ⟨g,hg,hk,by omega,by omega,by omega⟩

instance (s : Store) : DecidablePred (Op.Named s)
  | .settleInclusion a _ _ | .settleConfirmation a | .updateInclusionBlock a _ _ _
  | .demoteInclusion a => inferInstanceAs (Decidable (a.Names s))
  | .failJob _ allowed _ _ _ =>
    inferInstanceAs (Decidable (∀ st ∈ allowed, st.isTerminal = false))
  | .insertJob _ _ | .createTopup _ _ _ _ _ | .bindAttempt _ _ _ | .voidBinding _ _ _ _ _
  | .requeueFront _ _ | .cancelQueued _ | .acquire => .isTrue trivial

instance (s : Store) (op : Op) : Decidable (ledger.allowed s op) :=
  inferInstanceAs (Decidable (op.Named s))

/-- A demotion and a repeated settlement, then a second transaction of the same signer. -/
def gasOps : List Op :=
  let a := Sample.attempt 3 0 .job (.job 1)
  let b := Sample.attempt 4 1 .job (.job 2)
  [.insertJob 1 Sample.request,.insertJob 2 Sample.request,.bindAttempt 0 a .first,
    .bindAttempt 0 b .first,.settleInclusion a (Sample.inclusion 3 10 100) false,
    .demoteInclusion a,.demoteInclusion a,.settleInclusion a (Sample.inclusion 3 11 110) true,
    .settleInclusion a (Sample.inclusion 3 11 110) true,
    .settleInclusion b (Sample.inclusion 4 11 110) false]

theorem totals_recounted_reorg :
    ∃ s, ledger.Reaches Store.empty s ∧ s.gasOf ⟨1,9,.job⟩ = ⟨⟨1,9,.job⟩,2,42000,420000⟩ ∧
      (∀ key, s.gasOf key = s.recount key) ∧
      (∀ key, s.rollupOf key = (s.endedOf key).length) := by
  have hrun : ledger.Runs Store.empty gasOps := by decide
  have h := totals_recounted hrun.reaches
  exact ⟨_,hrun.reaches,by decide +kernel,h.1,h.2.1⟩

end GumEngine
