import GumEngine.Bench.Verdict

/-!
# What a clean verdict means

The checks a, b and c of `evaluate` against the conditions they stand for, over the
transactions that carry a job's key on the job's chain.
-/

namespace GumEngine.Bench

section Maps

variable {κ α β : Type} [DecidableEq κ]

theorem collect_from (pairs : List (κ × α)) (h : (pairs.map (·.1)).Nodup) (m : κ → Option α)
    (k : κ) (a : α) :
    pairs.foldl (fun (m : κ → Option α) p => Function.update m p.1 (some p.2)) m k = some a ↔
      (k,a) ∈ pairs ∨ k ∉ pairs.map (·.1) ∧ m k = some a := by
  induction pairs generalizing m with
  | nil => simp
  | cons p ps ih =>
    obtain ⟨k',a'⟩ := p
    rw [List.map_cons,List.nodup_cons] at h
    rw [List.foldl_cons,ih h.2]
    by_cases hk : k = k'
    · subst hk
      have hnot : (k,a) ∉ ps := fun hmem => h.1 (List.mem_map.mpr ⟨(k,a),hmem,rfl⟩)
      simp only [Function.update_self,Option.some.injEq,List.mem_cons,Prod.mk.injEq,true_and,
        List.map_cons]
      constructor
      · rintro (hmem | ⟨-,heq⟩)
        · exact absurd hmem hnot
        · exact .inl (.inl heq.symm)
      · rintro ((heq | hmem) | ⟨hmem,-⟩)
        · exact .inr ⟨h.1,heq.symm⟩
        · exact absurd hmem hnot
        · exact absurd (.inl trivial) hmem
    · simp only [Function.update_of_ne hk,List.mem_cons,Prod.mk.injEq,hk,false_and,false_or,
        List.map_cons]

/-- Where no key comes twice, a map has exactly the pairs it was collected from. -/
theorem collect_eq_some {pairs : List (κ × α)} (h : (pairs.map (·.1)).Nodup) {k : κ} {a : α} :
    collect pairs k = some a ↔ (k,a) ∈ pairs := by
  rw [collect,collect_from pairs h]
  simp

theorem length_valuesAt (pushes : List (κ × α)) (k : κ) :
    (valuesAt pushes k).length = (pushes.map (·.1)).count k := by
  rw [valuesAt,List.length_map,List.count,List.countP_map,List.countP_eq_length_filter]
  rfl

/-- No vector has two values just when no key was pushed to twice. -/
theorem entries_short (pushes : List (κ × α)) :
    (∀ e ∈ entries pushes, e.2.length ≤ 1) ↔ (pushes.map (·.1)).Nodup := by
  rw [List.nodup_iff_count_le_one]
  constructor
  · intro h k
    by_cases hk : k ∈ pushes.map (·.1)
    · rw [← length_valuesAt]
      exact h (k,valuesAt pushes k) (List.mem_map.mpr ⟨k,List.mem_dedup.mpr hk,rfl⟩)
    · rw [List.count_eq_zero.mpr hk]
      exact Nat.zero_le 1
  · intro h e he
    obtain ⟨k,-,rfl⟩ := List.mem_map.mp he
    show (valuesAt pushes k).length ≤ 1
    rw [length_valuesAt]
    exact h k

end Maps

/-- A fold that keeps a property just when each element does. -/
theorem foldl_iff {σ α : Type} {f : σ → α → σ} {C : σ → Prop} {P : α → Prop} (xs : List α)
    (h : ∀ s, ∀ x ∈ xs, C (f s x) ↔ C s ∧ P x) (s : σ) :
    C (xs.foldl f s) ↔ C s ∧ ∀ x ∈ xs, P x := by
  induction xs generalizing s with
  | nil => simp
  | cons x xs ih =>
    rw [List.foldl_cons,ih fun s y hy => h s y (List.mem_cons_of_mem x hy),
      h s x List.mem_cons_self,and_assoc,List.forall_mem_cons]

/-- The code is one of check a, b or c. -/
def Code.gated (code : Code) : Bool :=
  match code.check with
  | .a | .b | .c => true
  | .d | .g | .h | .i => false

/-- Nothing is reported under a, b or c. -/
def Violations.Clean (v : Violations) : Prop := ∀ code, code.gated = true → v.map code = none

namespace Violations

theorem clean_add (v : Violations) (code : Code) (id : String) :
    (v.add code id).Clean ↔ v.Clean ∧ code.gated = false := by
  have hself : (v.add code id).map code ≠ none := by
    show Function.update v.map code _ code ≠ none
    rw [Function.update_self]
    exact nofun
  have hother (code' : Code) (hne : code' ≠ code) : (v.add code id).map code' = v.map code' :=
    Function.update_of_ne hne ..
  cases hg : code.gated with
  | true => exact iff_of_false (fun h => hself (h code hg)) fun h => nomatch h.2
  | false =>
    rw [and_iff_left rfl]
    refine forall_congr' fun code' => imp_congr_right fun hg' => ?_
    rw [hother code' (by rintro rfl; rw [hg] at hg'; cases hg')]

theorem clean_flag (v : Violations) (found : Bool) (code : Code) (id : String) :
    (v.flag found code id).Clean ↔ v.Clean ∧ (code.gated = true → found = false) := by
  unfold flag
  cases found with
  | true => simp [clean_add]
  | false => simp

/-- Codes of the other checks do not count. -/
theorem clean_flag_other (v : Violations) (found : Bool) {code : Code} (h : code.gated = false)
    (id : String) : (v.flag found code id).Clean ↔ v.Clean := by
  rw [clean_flag,h]
  simp

theorem clean_flag_gated (v : Violations) (found : Bool) {code : Code} (h : code.gated = true)
    (id : String) : (v.flag found code id).Clean ↔ v.Clean ∧ found = false := by
  rw [clean_flag]
  simp [h]

end Violations

section Others

open Violations

variable (v : Violations) (j : JobRecord)

theorem checkHttp_clean : (checkHttp v j).Clean ↔ v.Clean := by
  unfold checkHttp
  rw [clean_flag_other _ _ rfl]
  split
  · rfl
  · rw [clean_flag_other _ _ rfl]

theorem checkReplay_clean : (checkReplay v j).Clean ↔ v.Clean := by
  unfold checkReplay
  split
  · rfl
  · dsimp only
    split
    · rfl
    · split
      · rw [clean_flag_other _ _ rfl]
      · rw [clean_flag_other _ _ rfl]
      · rfl

theorem checkExpected_clean (fs : TxStatus) : (checkExpected v j fs).Clean ↔ v.Clean :=
  clean_flag_other _ _ rfl _

theorem checkWebhooks_clean (ex : List ChainTx) (ds : List Delivery) (confirmed : Bool) :
    (checkWebhooks v j ex ds confirmed).Clean ↔ v.Clean := by
  unfold checkWebhooks
  dsimp only
  rw [clean_flag_other _ _ rfl]
  split
  · rw [clean_flag_other _ _ rfl,clean_flag_other _ _ rfl,clean_flag_other _ _ rfl]
    split
    · rw [clean_flag_other _ _ rfl,clean_flag_other _ _ rfl]
    · rw [clean_flag_other _ _ rfl]
  · rw [clean_flag_other _ _ rfl,clean_flag_other _ _ rfl]
    split
    · rw [clean_flag_other _ _ rfl,clean_flag_other _ _ rfl]
    · rw [clean_flag_other _ _ rfl]

theorem checkDelivery_clean (d : Delivery) : (checkDelivery v d).Clean ↔ v.Clean := by
  unfold checkDelivery
  dsimp only
  split
  · rw [clean_add,clean_flag_other _ _ rfl]
    exact and_iff_left rfl
  · rw [clean_flag_other _ _ rfl,clean_flag_other _ _ rfl]

end Others

/-- The transactions with the job's key on the job's chain. -/
def attributed (input : Input) (j : JobRecord) : List ChainTx :=
  input.facts.flatMap fun f =>
    if f.chainId = j.spec.chainId then f.txs.filter fun tx => tx.key f.target = j.spec.key else []

/-- What the API says of a confirmed job agrees with the transaction; `sameHash` says when a
text names a hash. -/
structure Reports (sameHash : String → Hash → Prop) (fs : TxStatus) (tx : ChainTx) : Prop where
  outcome : ∃ outcome, fs.outcome = some outcome ∧ (outcome = "success" ↔ tx.success = true)
  txHash : ∃ text, fs.txHash = some text ∧ sameHash text tx.hash
  nonce : fs.nonce = some tx.nonce
  signer : ∃ signer, fs.signer = some signer ∧ eqIgnoreAsciiCase signer (hexText tx.sender) = true
  block : fs.blockNumber = some tx.block

/-- An accepted job that ended as confirmed. -/
def JobRecord.ConfirmedAs (j : JobRecord) (fs : TxStatus) : Prop :=
  j.accepted = true ∧ j.finalStatus = some fs ∧ fs.status = "confirmed"

/-- Never twice, and logged as often as it succeeded. -/
structure ExecutedOnce (input : Input) (j : JobRecord) : Prop where
  once : (attributed input j).length ≤ 1
  logs : ∀ f ∈ input.facts, f.chainId = j.spec.chainId → f.hitLogs j.spec.benchId ≤ 1
  hits : ∀ f ∈ input.facts, f.chainId = j.spec.chainId → j.spec.kind.logsHit = true →
    f.hitLogs j.spec.benchId = (attributed input j).countP (·.success)

/-- What holds of one job. -/
structure JobSound (sameHash : String → Hash → Prop) (input : Input) (j : JobRecord) : Prop
    extends ExecutedOnce input j where
  rejected : j.accepted = false → j.indeterminate = false → attributed input j = []
  ended : j.accepted = true → ∃ fs, j.finalStatus = some fs ∧ fs.isTerminal = true
  confirmed : ∀ fs, j.ConfirmedAs fs →
    ∃ tx, attributed input j = [tx] ∧ Reports sameHash fs tx
  failed : ∀ fs, j.accepted = true → j.finalStatus = some fs → fs.status = "failed" →
    attributed input j = []

/-- Everything the checks a, b and c stand for. -/
structure Sound (p : Platform) (sameHash : String → Hash → Prop) (input : Input) : Prop where
  jobs : ∀ j ∈ input.jobs, JobSound sameHash input j
  nonces : ∀ i ∈ input.jobs, ∀ j ∈ input.jobs, ∀ fs gs claim, i.ConfirmedAs fs →
    j.ConfirmedAs gs → nonceClaim p i fs = some claim → nonceClaim p j gs = some claim →
    i.spec.idx = j.spec.idx
  pending : ∀ f ∈ input.facts, ∀ a, a ∈ input.signerAddrs ∨ a = input.treasury →
    (f.nonceLatest a).getD 0 = (f.noncePending a).getD 0

/-- Distinct indices, distinct keys on a chain, and one set of facts a chain. -/
structure Input.WellFormed (input : Input) : Prop where
  idx : (input.jobs.map (·.spec.idx)).Nodup
  keys : (input.jobs.map fun j => (j.spec.chainId,j.spec.key)).Nodup
  chains : (input.facts.map (·.chainId)).Nodup

section Attribution

variable {input : Input} {j : JobRecord}

theorem valuesAt_filterMap {α : Type} (xs : List (Option Nat × α)) (k : Nat) :
    valuesAt (xs.filterMap fun p => p.1.map (·,p.2)) k =
      (xs.filter fun p => p.1 = some k).map (·.2) := by
  induction xs with
  | nil => rfl
  | cons x xs ih =>
    obtain ⟨o,a⟩ := x
    cases o with
    | none => simpa [valuesAt] using ih
    | some i =>
      by_cases hi : i = k
      · simpa [valuesAt,hi] using ih
      · simpa [valuesAt,hi] using ih

/-- The index that a transaction's key leads to. -/
theorem byKey_eq (h : input.WellFormed) (hj : j ∈ input.jobs) (chain : Nat) (key : TxKey) :
    collect (input.jobs.map fun j => ((j.spec.chainId,j.spec.key),j.spec.idx)) (chain,key) =
      some j.spec.idx ↔ chain = j.spec.chainId ∧ key = j.spec.key := by
  have hkeys : ((input.jobs.map fun j => ((j.spec.chainId,j.spec.key),j.spec.idx)).map
      (·.1)).Nodup := by
    rw [List.map_map]
    exact h.keys
  rw [collect_eq_some hkeys,List.mem_map]
  constructor
  · rintro ⟨i,hi,heq⟩
    have hidx : i.spec.idx = j.spec.idx := congrArg (·.2) heq
    obtain rfl : i = j := List.inj_on_of_nodup_map h.idx hi hj hidx
    exact ⟨(congrArg (·.1.1) heq).symm,(congrArg (·.1.2) heq).symm⟩
  · rintro ⟨rfl,rfl⟩
    exact ⟨j,hj,rfl⟩

/-- The executions `evaluate` looks up are those with the job's key. -/
theorem execs_eq (h : input.WellFormed) (hj : j ∈ input.jobs) :
    valuesAt (attributeTxs input.jobs input.facts).1 j.spec.idx = attributed input j := by
  unfold attributeTxs attributed
  dsimp only
  rw [valuesAt_filterMap,List.filter_flatMap,List.map_flatMap]
  refine List.flatMap_congr fun f _ => ?_
  rw [List.filter_map,List.map_map]
  show (f.txs.filter fun tx => _).map id = _
  rw [List.map_id]
  split
  next hc =>
    refine List.filter_congr fun tx _ => ?_
    exact decide_eq_decide.mpr ((byKey_eq h hj _ _).trans (and_iff_right hc))
  next hc =>
    refine List.filter_eq_nil_iff.mpr fun tx _ => ?_
    simp only [Function.comp_apply,decide_eq_true_eq,byKey_eq h hj]
    exact fun heq => hc heq.1

theorem factsByChain_eq (h : input.WellFormed) (chain : Nat) (f : ChainFacts) :
    collect (input.facts.map fun f => (f.chainId,f)) chain = some f ↔
      f ∈ input.facts ∧ f.chainId = chain := by
  have hkeys : ((input.facts.map fun f => (f.chainId,f)).map (·.1)).Nodup := by
    rw [List.map_map]
    exact h.chains
  rw [collect_eq_some hkeys,List.mem_map]
  constructor
  · rintro ⟨g,hg,heq⟩
    obtain rfl : g = f := congrArg (·.2) heq
    exact ⟨hg,congrArg (·.1) heq⟩
  · rintro ⟨hf,rfl⟩
    exact ⟨f,hf,rfl⟩

end Attribution

/-- A text names a hash up to case. -/
def Platform.names (p : Platform) (text : String) (hash : Hash) : Prop :=
  p.lowercase text = hexText hash

section Jobs

open Violations

variable {p : Platform} {v : Violations} {j : JobRecord} {ex : List ChainTx} {fs : TxStatus}

theorem checkOnce_clean (facts : Option ChainFacts) :
    (checkOnce facts v j ex).Clean ↔ v.Clean ∧ ex.length ≤ 1 ∧ ∀ f, facts = some f →
      f.hitLogs j.spec.benchId ≤ 1 ∧
        (j.spec.kind.logsHit = true → f.hitLogs j.spec.benchId = ex.countP (·.success)) := by
  unfold checkOnce
  cases facts with
  | none =>
    dsimp only
    rw [clean_flag_gated _ _ rfl,decide_eq_false_iff_not,not_lt]
    simp
  | some f =>
    dsimp only
    rw [clean_flag_gated _ _ rfl,clean_flag_gated _ _ rfl,clean_flag_gated _ _ rfl,
      decide_eq_false_iff_not,decide_eq_false_iff_not,not_lt,not_lt,and_assoc,and_assoc]
    refine and_congr_right fun _ => and_congr_right fun hlen => ?_
    have hcount : min (ex.countP (·.success)) 1 = ex.countP (·.success) :=
      min_eq_left (List.countP_le_length.trans hlen)
    simp only [hcount,decide_eq_true hlen,Bool.and_true,Option.some.injEq,forall_eq',
      Bool.and_eq_false_imp,bne_eq_false_iff_eq]

/-- The hash the API reports is looked up in lower case, and a missing one is no hash. -/
theorem apiHash_eq (hash : Hash) :
    hexText hash = p.lowercase (fs.txHash.getD "") ↔
      ∃ text, fs.txHash = some text ∧ p.names text hash := by
  cases htext : fs.txHash with
  | none =>
    have hempty : p.lowercase "" = "" := (p.lowercase_ascii "" (by simp)).trans (by decide +kernel)
    refine iff_of_false ?_ nofun
    rw [Option.getD_none,hempty]
    exact fun heq => absurd (congrArg String.toList heq) (by simp [hexText])
  | some text =>
    simp only [Option.getD_some,Option.some.injEq,exists_eq_left',Platform.names]
    exact eq_comm

theorem checkOutcome_clean (tx : ChainTx) :
    (checkOutcome v j [tx] tx fs).Clean ↔ v.Clean ∧
      ∃ outcome, fs.outcome = some outcome ∧ (outcome = "success" ↔ tx.success = true) := by
  unfold checkOutcome
  cases fs.outcome with
  | none => exact iff_of_false (fun h => nomatch ((clean_add ..).mp h).2) nofun
  | some outcome =>
    dsimp only
    rw [clean_flag_gated _ _ rfl]
    refine and_congr_right fun _ => ?_
    simp only [List.length_singleton,beq_self_eq_true,Bool.true_and,bne_eq_false_iff_eq,
      Option.some.injEq,exists_eq_left']
    rw [Bool.eq_iff_iff,beq_iff_eq]

theorem checkConfirmed_clean (hlen : ex.length ≤ 1) :
    (checkConfirmed p v j ex fs).Clean ↔ v.Clean ∧ ∃ tx, ex = [tx] ∧ Reports p.names fs tx := by
  cases ex with
  | nil =>
    refine iff_of_false (fun h => ?_) nofun
    exact nomatch ((clean_add ..).mp h).2
  | cons tx rest =>
    obtain rfl : rest = [] := by
      cases rest with
      | nil => rfl
      | cons _ _ => simp at hlen
    have hrhs : (∃ t, [tx] = [t] ∧ Reports p.names fs t) ↔ Reports p.names fs tx := by simp
    rw [hrhs]
    unfold checkConfirmed
    dsimp only
    by_cases hhash : hexText tx.hash = p.lowercase (fs.txHash.getD "")
    · have hfind : [tx].find? (fun t => hexText t.hash == p.lowercase (fs.txHash.getD "")) =
          some tx := by simp [hhash]
      rw [hfind]
      dsimp only
      rw [clean_flag_gated _ _ rfl,clean_flag_gated _ _ rfl,clean_flag_gated _ _ rfl,
        checkOutcome_clean,        bne_eq_false_iff_eq,bne_eq_false_iff_eq,Bool.not_eq_false']
      have hsigner : (fs.signer.map (eqIgnoreAsciiCase · (hexText tx.sender))).getD false = true ↔
          ∃ signer, fs.signer = some signer ∧
            eqIgnoreAsciiCase signer (hexText tx.sender) = true := by
        cases fs.signer <;> simp
      rw [hsigner]
      constructor
      · rintro ⟨⟨⟨⟨hv,ho⟩,hn⟩,hs⟩,hb⟩
        exact ⟨hv,ho,(apiHash_eq tx.hash).mp hhash,hn,hs,hb⟩
      · rintro ⟨hv,ho,-,hn,hs,hb⟩
        exact ⟨⟨⟨⟨hv,ho⟩,hn⟩,hs⟩,hb⟩
    · have hfind : [tx].find? (fun t => hexText t.hash == p.lowercase (fs.txHash.getD "")) =
          none := by simp [hhash]
      rw [hfind]
      dsimp only
      refine iff_of_false (fun h => nomatch ((clean_add ..).mp h).2) fun h => ?_
      exact hhash ((apiHash_eq tx.hash).mpr h.2.txHash)

/-- What is reported stays reported. -/
theorem checkConfirmed_keeps (h : (checkConfirmed p v j ex fs).Clean) : v.Clean := by
  have hout (tx : ChainTx) (hc : (checkOutcome v j ex tx fs).Clean) : v.Clean := by
    unfold checkOutcome at hc
    split at hc
    · exact ((clean_add ..).mp hc).1
    · exact ((clean_flag ..).mp hc).1
  unfold checkConfirmed at h
  split at h
  · exact ((clean_add ..).mp h).1
  next tx _ =>
    dsimp only at h
    split at h
    · exact hout tx ((clean_add ..).mp h).1
    · exact hout tx
        ((clean_flag ..).mp ((clean_flag ..).mp ((clean_flag ..).mp h).1).1).1

variable {input : Input}

theorem executedOnce_clean (h : input.WellFormed) :
    (checkHttp (checkOnce (collect (input.facts.map fun f => (f.chainId,f)) j.spec.chainId) v j
      (attributed input j)) j).Clean ↔ v.Clean ∧ ExecutedOnce input j := by
  rw [checkHttp_clean,checkOnce_clean]
  refine and_congr_right fun _ => ⟨fun ⟨honce,hf⟩ => ?_,fun he => ⟨he.once,fun f hf => ?_⟩⟩
  · refine ⟨honce,fun f hmem hc => ?_,fun f hmem hc => ?_⟩
    · exact (hf f ((factsByChain_eq h _ f).mpr ⟨hmem,hc⟩)).1
    · exact (hf f ((factsByChain_eq h _ f).mpr ⟨hmem,hc⟩)).2
  · obtain ⟨hmem,hc⟩ := (factsByChain_eq h _ f).mp hf
    exact ⟨he.logs f hmem hc,he.hits f hmem hc⟩

/-- What one job adds under a, b and c. -/
theorem judge_clean (h : input.WellFormed) (hj : j ∈ input.jobs)
    (st : Violations × List ((Nat × String × Nat) × String)) :
    (judge p input st j).1.Clean ↔ st.1.Clean ∧ JobSound p.names input j := by
  unfold judge
  dsimp only
  rw [execs_eq h hj]
  cases hacc : j.accepted with
  | false =>
    rw [if_neg Bool.false_ne_true]
    dsimp only
    rw [clean_flag_gated _ _ rfl,executedOnce_clean h,and_assoc]
    refine and_congr_right fun _ => ⟨fun ⟨he,hr⟩ => ?_,fun hs => ⟨hs.toExecutedOnce,?_⟩⟩
    · refine { he with rejected := fun _ hi => ?_, ended := ?_, confirmed := ?_, failed := ?_ }
      · simpa [hi] using hr
      · exact fun ha => absurd ha (by simp [hacc])
      · exact fun fs hc => absurd hc.1 (by simp [hacc])
      · exact fun fs ha => absurd ha (by simp [hacc])
    · cases hi : j.indeterminate with
      | true => rfl
      | false => simp [hs.rejected hacc hi]
  | true =>
    rw [if_pos rfl]
    cases hfs : j.finalStatus.filter TxStatus.isTerminal with
    | none =>
      refine iff_of_false (fun hc => nomatch ((clean_add ..).mp hc).2) fun hs => ?_
      obtain ⟨fs,hfinal,hterm⟩ := hs.2.ended hacc
      rw [hfinal,Option.filter_some,if_pos hterm] at hfs
      cases hfs
    | some fs =>
      obtain ⟨hfinal,hterm⟩ := Option.filter_eq_some_iff.mp hfs
      have honly (gs : TxStatus) (hgs : j.finalStatus = some gs) : gs = fs :=
        Option.some.inj (hgs.symm.trans hfinal)
      dsimp only
      by_cases hconf : fs.status = "confirmed"
      · rw [if_pos (beq_iff_eq.mpr hconf)]
        dsimp only
        rw [checkWebhooks_clean,checkExpected_clean]
        constructor
        · intro hc
          have hkept := checkConfirmed_keeps hc
          rw [checkReplay_clean,executedOnce_clean h] at hkept
          obtain ⟨-,hreports⟩ := (checkConfirmed_clean hkept.2.once).mp hc
          refine ⟨hkept.1,{ hkept.2 with rejected := ?_, ended := ?_, confirmed := ?_, failed := ?_ }⟩
          · exact fun ha => absurd hacc (by simp [ha])
          · exact fun _ => ⟨fs,hfinal,hterm⟩
          · exact fun gs hgs => honly gs hgs.2.1 ▸ hreports
          · intro gs _ hgs hfailed
            rw [honly gs hgs,hconf] at hfailed
            exact absurd hfailed (by decide)
        · rintro ⟨hclean,hs⟩
          refine (checkConfirmed_clean hs.once).mpr ⟨?_,hs.confirmed fs ⟨hacc,hfinal,hconf⟩⟩
          rw [checkReplay_clean,executedOnce_clean h]
          exact ⟨hclean,hs.toExecutedOnce⟩
      · rw [if_neg (by simpa using hconf)]
        dsimp only
        rw [checkWebhooks_clean,checkExpected_clean,clean_flag_gated _ _ rfl,checkReplay_clean,
          executedOnce_clean h,and_assoc]
        have hfailed : fs.status = "failed" := by simpa [TxStatus.isTerminal,hconf] using hterm
        refine and_congr_right fun _ => ⟨fun ⟨he,hr⟩ => ?_,fun hs => ⟨hs.toExecutedOnce,?_⟩⟩
        · refine { he with rejected := ?_, ended := ?_, confirmed := ?_, failed := ?_ }
          · exact fun ha => absurd hacc (by simp [ha])
          · exact fun _ => ⟨fs,hfinal,hterm⟩
          · exact fun gs hgs => absurd (honly gs hgs.2.1 ▸ hgs.2.2) hconf
          · exact fun gs _ _ _ => by simpa using hr
        · simp [hs.failed fs hacc hfinal hfailed]

/-- The nonce a job claims, if it is confirmed. -/
def claimOf (p : Platform) (j : JobRecord) : Option (Nat × String × Nat) :=
  j.finalStatus.bind fun fs =>
    if j.accepted = true ∧ fs.status = "confirmed" then nonceClaim p j fs else none

theorem claimOf_eq_some {claim : Nat × String × Nat} :
    claimOf p j = some claim ↔ ∃ fs, j.ConfirmedAs fs ∧ nonceClaim p j fs = some claim := by
  unfold claimOf JobRecord.ConfirmedAs
  cases j.finalStatus with
  | none => simp
  | some fs =>
    rw [Option.bind_some]
    constructor
    · intro hc
      split at hc
      next hif => exact ⟨fs,⟨hif.1,rfl,hif.2⟩,hc⟩
      next => cases hc
    · rintro ⟨gs,⟨hacc,hgs,hconf⟩,hclaim⟩
      obtain rfl := Option.some.inj hgs
      rw [if_pos ⟨hacc,hconf⟩]
      exact hclaim

theorem judge_claims (st : Violations × List ((Nat × String × Nat) × String)) :
    (judge p input st j).2 = st.2 ++ ((claimOf p j).map (·,label j)).toList := by
  unfold judge claimOf
  dsimp only
  cases hacc : j.accepted with
  | false => cases j.finalStatus <;> simp
  | true =>
    rw [if_pos rfl]
    cases hfs : j.finalStatus with
    | none => simp
    | some fs =>
      by_cases hconf : fs.status = "confirmed"
      · simp [TxStatus.isTerminal,Option.filter_some,hconf]
      · by_cases hfailed : fs.status = "failed"
        · simp [TxStatus.isTerminal,Option.filter_some,hfailed]
        · simp [TxStatus.isTerminal,Option.filter_some,hconf,hfailed]

theorem judge_all_claims (js : List JobRecord)
    (st : Violations × List ((Nat × String × Nat) × String)) :
    ((js.foldl (judge p input) st).2).map (·.1) = st.2.map (·.1) ++ js.filterMap (claimOf p) := by
  induction js generalizing st with
  | nil => simp
  | cons j js ih =>
    rw [List.foldl_cons,ih,judge_claims,List.map_append,List.append_assoc]
    congr 1
    cases hc : claimOf p j with
    | none => simp [hc]
    | some claim => simp [hc]

/-- Every nonce is claimed by one job. -/
theorem claims_nodup (h : input.WellFormed) :
    (input.jobs.filterMap (claimOf p)).Nodup ↔
      ∀ i ∈ input.jobs, ∀ j ∈ input.jobs, ∀ fs gs claim, i.ConfirmedAs fs → j.ConfirmedAs gs →
        nonceClaim p i fs = some claim → nonceClaim p j gs = some claim →
        i.spec.idx = j.spec.idx := by
  have hidx {i j : JobRecord} (hi : i ∈ input.jobs) (hj : j ∈ input.jobs) :
      i.spec.idx = j.spec.idx ↔ i = j :=
    ⟨fun heq => List.inj_on_of_nodup_map h.idx hi hj heq,fun heq => by rw [heq]⟩
  rw [List.Nodup,List.pairwise_filterMap]
  constructor
  · intro hp i hi j hj fs gs claim hfs hgs hic hjc
    by_contra hne
    let apart (a b : JobRecord) : Prop :=
      ∀ x, claimOf p a = some x → ∀ y, claimOf p b = some y → x ≠ y
    have hsymm : Std.Symm apart := ⟨fun a b hab x hx y hy heq => hab y hy x hx heq.symm⟩
    have hall : apart i j := List.Pairwise.forall hp hi hj fun heq => hne ((hidx hi hj).mpr heq)
    exact hall claim (claimOf_eq_some.mpr ⟨fs,hfs,hic⟩) claim
      (claimOf_eq_some.mpr ⟨gs,hgs,hjc⟩) rfl
  · intro hall
    refine (List.Nodup.of_map _ h.idx).pairwise_of_forall_ne fun i hi j hj hne claim hic claim' hjc => ?_
    rintro rfl
    obtain ⟨fs,hfs,hif⟩ := claimOf_eq_some.mp hic
    obtain ⟨gs,hgs,hjg⟩ := claimOf_eq_some.mp hjc
    exact hne ((hidx hi hj).mp (hall i hi j hj fs gs claim hfs hgs hif hjg))

theorem checkClaim_clean (claim : (Nat × String × Nat) × List String) :
    (checkClaim v claim).Clean ↔ v.Clean ∧ claim.2.length ≤ 1 := by
  obtain ⟨key,ids⟩ := claim
  unfold checkClaim
  dsimp only
  split
  next hlong =>
    rw [foldl_iff (C := Clean) (P := fun _ => False) ids
      (fun v id _ => by rw [clean_add]; exact and_congr_right fun _ => by simp [Code.gated,Code.check])]
    have hne : ids ≠ [] := by
      rintro rfl
      exact absurd hlong (by decide)
    obtain ⟨id,hid⟩ := List.exists_mem_of_ne_nil ids hne
    exact iff_of_false (fun hc => hc.2 id hid) fun hc => absurd hc.2 (not_le.mpr hlong)
  next hshort => exact (and_iff_left (not_lt.mp hshort)).symm

theorem checkPending_clean (f : ChainFacts) :
    (checkPending input v f).Clean ↔ v.Clean ∧
      ∀ a, a ∈ input.signerAddrs ∨ a = input.treasury →
        (f.nonceLatest a).getD 0 = (f.noncePending a).getD 0 := by
  unfold checkPending
  rw [foldl_iff (C := Clean)
    (P := fun a => (f.nonceLatest a).getD 0 = (f.noncePending a).getD 0) _
    fun v a _ => by rw [clean_flag_gated _ _ rfl,bne_eq_false_iff_eq]]
  simp only [List.mem_append,List.mem_singleton]

end Jobs

/-- The loops of `evaluate`, one after another. -/
theorem evaluate_clean (p : Platform) {input : Input} (h : input.WellFormed) :
    (evaluate p input).Clean ↔ (∀ j ∈ input.jobs, JobSound p.names input j) ∧
      (input.jobs.filterMap (claimOf p)).Nodup ∧
      ∀ f ∈ input.facts, ∀ a, a ∈ input.signerAddrs ∨ a = input.treasury →
        (f.nonceLatest a).getD 0 = (f.noncePending a).getD 0 := by
  unfold evaluate
  dsimp only
  rw [foldl_iff (C := Violations.Clean) _ fun v f _ => checkPending_clean f,
    foldl_iff (C := Violations.Clean) _ fun v e _ => checkClaim_clean e,
    foldl_iff (C := Violations.Clean) (P := fun _ => True) _
      fun v d _ => (checkDelivery_clean v d).trans (and_iff_left trivial).symm,
    foldl_iff (C := fun st => st.1.Clean) (P := JobSound p.names input) _
      fun st j hj => judge_clean h hj st]
  have hclaims : (∀ e ∈ p.walk (entries (input.jobs.foldl (judge p input) (.empty,[])).2),
      e.2.length ≤ 1) ↔ (input.jobs.filterMap (claimOf p)).Nodup := by
    -- The order in which the map is walked does not matter.
    have hwalk : (∀ e ∈ p.walk (entries (input.jobs.foldl (judge p input) (.empty,[])).2),
        e.2.length ≤ 1) ↔ ∀ e ∈ entries (input.jobs.foldl (judge p input) (.empty,[])).2,
        e.2.length ≤ 1 :=
      forall_congr' fun e => by rw [(p.walk_perm _).mem_iff]
    rw [hwalk,entries_short,judge_all_claims]
    rfl
  rw [hclaims]
  constructor
  · rintro ⟨⟨⟨⟨-,hjobs⟩,-⟩,hnonces⟩,hpending⟩
    exact ⟨hjobs,hnonces,hpending⟩
  · rintro ⟨hjobs,hnonces,hpending⟩
    exact ⟨⟨⟨⟨fun _ _ => rfl,hjobs⟩,fun _ _ => trivial⟩,hnonces⟩,hpending⟩

/-- The verdict is clean under a, b and c exactly when the run was right. -/
theorem evaluate_exact (p : Platform) {input : Input} (h : input.WellFormed) :
    (evaluate p input).Clean ↔ Sound p p.names input := by
  rw [evaluate_clean p h,claims_nodup h]
  constructor
  · rintro ⟨hjobs,hnonces,hpending⟩
    exact ⟨hjobs,hnonces,hpending⟩
  · rintro ⟨hjobs,hnonces,hpending⟩
    exact ⟨hjobs,hnonces,hpending⟩

/-- Lower-casing as it is on ASCII. -/
def asciiPlatform : Platform := ⟨String.toLower,fun _ _ => rfl,id,fun _ => .refl _⟩

def hitTx : ChainTx where
  block := 5
  hash := 0xab
  sender := 0xcd
  toAddr := some 1
  nonce := 0
  input := [0xa4,0x59,0x39,0xbf] ++ List.replicate 31 0 ++ [7]
  success := true

/-- The engine reports the transaction under this hash. -/
def hitStatus (txHash : String) : TxStatus where
  status := "confirmed"
  outcome := some "success"
  signer := some (hexText (0xcd : Addr))
  nonce := some 0
  txHash := some txHash
  blockNumber := some 5
  error := none

def hitJob (txHash : String) : JobRecord where
  spec := ⟨0,.hitGas,1,7,1,.dead⟩
  attempts := 1
  submit := ⟨some 202,some "job",false,none,none⟩
  indeterminate := false
  replay := none
  finalStatus := some (hitStatus txHash)

/-- One job that hit the target once. -/
def hitInput (txHash : String) : Input where
  jobs := [hitJob txHash]
  deliveries := []
  facts := [⟨1,1,[hitTx],fun id => if id = 7 then 1 else 0,fun _ => some 1,fun _ => some 1⟩]
  signerAddrs := [0xcd]
  treasury := 2

theorem hitInput_wellFormed (txHash : String) : (hitInput txHash).WellFormed :=
  ⟨List.nodup_singleton _,List.nodup_singleton _,List.nodup_singleton _⟩

theorem hitInput_attributed (txHash : String) :
    attributed (hitInput txHash) (hitJob txHash) = [hitTx] := by
  have hkey : hitTx.key 1 = .id 7 := by decide +kernel
  show [hitTx].filter (fun tx => tx.key 1 = .id 7) ++ [] = [hitTx]
  rw [List.append_nil,List.filter_eq_self]
  exact fun tx htx => decide_eq_true (List.mem_singleton.mp htx ▸ hkey)

theorem hitInput_reports {p : Platform} {txHash : String} (h : p.names txHash 0xab) :
    Reports p.names (hitStatus txHash) hitTx where
  outcome := ⟨_,rfl,by simp [hitTx]⟩
  txHash := ⟨txHash,rfl,h⟩
  nonce := rfl
  signer := ⟨_,rfl,beq_self_eq_true _⟩
  block := rfl

theorem hitInput_sound {p : Platform} {txHash : String} (h : p.names txHash 0xab) :
    ∀ j ∈ (hitInput txHash).jobs, JobSound p.names (hitInput txHash) j := by
  intro j hj
  obtain rfl : j = hitJob txHash := List.mem_singleton.mp hj
  have hacc : (hitJob txHash).accepted = true := rfl
  have hfacts (f : ChainFacts) (hf : f ∈ (hitInput txHash).facts) : f.hitLogs 7 = 1 := by
    obtain rfl := List.mem_singleton.mp hf
    rfl
  constructor
  · constructor
    · rw [hitInput_attributed]
      exact le_rfl
    · exact fun f hf _ => (hfacts f hf).le
    · intro f hf _ _
      rw [hitInput_attributed]
      exact hfacts f hf
  · exact fun ha => absurd hacc (by simp [ha])
  · exact fun _ => ⟨_,rfl,rfl⟩
  · rintro fs ⟨-,hfs,-⟩
    obtain rfl := Option.some.inj hfs
    exact ⟨hitTx,hitInput_attributed txHash,hitInput_reports h⟩
  · intro fs _ hfs hfailed
    obtain rfl := Option.some.inj hfs
    exact absurd (show "confirmed" = "failed" from hfailed) (by decide)

theorem hitInput_clean {p : Platform} {txHash : String} (h : p.names txHash 0xab) :
    (evaluate p (hitInput txHash)).Clean := by
  refine (evaluate_clean p (hitInput_wellFormed txHash)).mpr ⟨hitInput_sound h,?_,?_⟩
  · exact List.nodup_singleton _
  · intro f hf a _
    obtain rfl := List.mem_singleton.mp hf
    rfl

/-- The hash in capitals. -/
def shoutedHash : String := "0x00000000000000000000000000000000000000000000000000000000000000AB"

theorem shoutedHash_names : asciiPlatform.names shoutedHash 0xab := by
  show shoutedHash.toLower = hexText (0xab : Hash)
  decide +kernel

theorem evaluate_exact_hit : (hitInput shoutedHash).WellFormed ∧
    Sound asciiPlatform asciiPlatform.names (hitInput shoutedHash) :=
  ⟨hitInput_wellFormed _,(evaluate_exact asciiPlatform (hitInput_wellFormed _)).mp
    (hitInput_clean shoutedHash_names)⟩

/-- The verdict takes the hash in capitals for the transaction's, which the text is not. -/
theorem shouted_hash_passes :
    (evaluate asciiPlatform (hitInput shoutedHash)).Clean ∧
      ¬ Sound asciiPlatform (fun text hash => text = hexText hash) (hitInput shoutedHash) := by
  refine ⟨hitInput_clean shoutedHash_names,fun h => ?_⟩
  obtain ⟨tx,htx,hreports⟩ := (h.jobs (hitJob shoutedHash) List.mem_cons_self).confirmed
    (hitStatus shoutedHash) ⟨rfl,rfl,rfl⟩
  rw [hitInput_attributed] at htx
  obtain rfl : hitTx = tx := by simpa using htx
  obtain ⟨text,htext,hsame⟩ := hreports.txHash
  obtain rfl : shoutedHash = text := Option.some.inj htext
  have hne : shoutedHash ≠ hexText (0xab : Hash) := by decide +kernel
  exact hne hsame

end GumEngine.Bench
