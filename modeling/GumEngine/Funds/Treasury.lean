import GumEngine.Laws.Consistency
import GumEngine.Pipeline.Bind

/-!
# Top-ups from the treasury

`funds/treasury.rs` and what settlements do to `topups`. A treasury nonce is driven like
any other: its attempts are the transfer, dearer copies of it and, at the end of the stuck
ladder, a cancel. Any of them may be the one that is mined.
-/

namespace GumEngine
open Relational Transition

/-- How `TxDriver::execute` ends. -/
inductive Driven
  | mined (attempt : Attempt) (inclusion : Inclusion)
  | notBound (why : NotBound)
  | voided (requeued : Bool) (reason : String)
  | unresolved | needsRecovery | aborted

structure TopupRequest where
  signer : Address
  needed : U256
  value : U256

structure TreasuryConfig where
  initialTopupAmount : U256
  topupAmount : U256
  maxTopupsPerSignerPerHour : Nat

/-- What `fund` reads on its way, an error as its text: the reason of a pause, whether the
signer is known, its spendable and maturing balance, the store, the fee quote, the gas
limit, whether the treasury can pay, and how the driver ended. -/
structure FundReads where
  paused : Option String
  known : Bool
  covered : U256
  everToppedUp : Except String Bool
  recentTopups : Except String Nat
  feeQuote : Except String Unit
  gasLimit : Except String Nat
  createTopup : Except String Uuid
  affordable : Bool
  outcome : Driven

/-- The reply to the requester, the credit to the signer's ledger with its block, the
top-up given up on, and whether the treasury is to be recovered. -/
structure Funded where
  reply : Except String Unit
  credit : Option (U256 × Nat)
  failTopup : Option (Uuid × String)
  recovery : Bool

def Funded.refused (reason : String) : Funded := ⟨.error reason,none,none,false⟩

/-- Why the transfer was not sent; `store` and `signer` are the texts of errors. -/
def NotBound.refusal (store : StoreError → String) (signer : SignerError → String) :
    NotBound → String
  | .signer e => "treasury signer: " ++ signer e
  | .store e => "store: " ++ store e
  | .ownerGone => "top-up was already handled"

/-- The last part of `fund`: what the driver's outcome means to the requester. -/
def fundOutcome (store : StoreError → String) (signer : SignerError → String) (amount : U256)
    (topupId : Uuid) : Driven → Funded
  | .mined _ inclusion =>
    if inclusion.outcome = .success then ⟨.ok (),some (amount,inclusion.blockNumber),none,false⟩
    else .refused "top-up transaction reverted"
  | .notBound why =>
    ⟨.error (why.refusal store signer),none,some (topupId,"could not be sent"),false⟩
  | .voided _ reason => .refused ("top-up rejected: " ++ reason)
  | .needsRecovery => ⟨.error "treasury needs nonce recovery",none,none,true⟩
  | .unresolved => .refused "treasury transaction is stuck; operator attention needed"
  | .aborted => .refused "engine is shutting down"

/-- `treasury::fund`; `store` and `signer` are the texts of errors. -/
def fund (store : StoreError → String) (signer : SignerError → String) (cfg : TreasuryConfig)
    (request : TopupRequest) (r : FundReads) : Funded :=
  match r.paused with
  | some reason => .refused ("treasury is paused (" ++ reason ++ ")")
  | none =>
    if !r.known then .refused "unknown signer" else
    if r.covered ≥ request.needed then ⟨.ok (),none,none,false⟩ else
    match r.everToppedUp with
    | .error e => .refused ("store: " ++ e)
    | .ok ever =>
      let base := if ever then cfg.topupAmount else cfg.initialTopupAmount
      let amount := max base (request.needed - r.covered)
      match r.recentTopups with
      | .error e => .refused ("store: " ++ e)
      | .ok recent =>
        if recent ≥ cfg.maxTopupsPerSignerPerHour then
          .refused ("signer already received " ++ toString recent ++ " top-ups in the last hour")
        else
        match r.feeQuote,r.gasLimit,r.createTopup with
        | .error e,_,_ => .refused ("fee quote: " ++ e)
        | .ok (),.error e,_ => .refused ("gas estimate: " ++ e)
        | .ok (),.ok _,.error e => .refused ("store: " ++ e)
        | .ok (),.ok _,.ok topupId =>
          if !r.affordable then
            { Funded.refused "treasury balance is too low to fund this signer" with
              failTopup := some (topupId,"treasury balance too low") }
          else fundOutcome store signer amount topupId r.outcome

/-! ## What a run does to a top-up -/

/-- `status IN ('included', 'confirmed')` -/
def TopupRow.delivered (t : TopupRow) : Prop := t.status = .included ∨ t.status = .confirmed

/-- The attempt that a transaction records as mined or confirmed. -/
def Op.settled : Op → Option Attempt
  | settleInclusion a _ _ | settleConfirmation a => some a
  | _ => none

/-- A top-up becomes `included` or `confirmed` only through its own transfer. -/
def DeliversOwn (s : Store) (op : Op) : Prop :=
  ∀ t' ∈ (op.apply s).topups.rows, t'.delivered →
    (∃ t ∈ s.topups.rows, t.id = t'.id ∧ t.status = t'.status) ∨
      ∃ a ∈ op.settled, a.owner = .topup t'.id ∧ a.purpose = .topup

/-- A credit, or an `Ok` for a transfer that was sent, comes from the transfer itself. -/
def CreditsOwn (store : StoreError → String) (signer : SignerError → String)
    (cfg : TreasuryConfig) (request : TopupRequest) (r : FundReads) : Prop :=
  ∀ a inc, r.outcome = .mined a inc → request.needed > r.covered →
    (fund store signer cfg request r).credit.isSome = true ∨
      (fund store signer cfg request r).reply = .ok () →
    a.purpose = .topup ∧ inc.outcome = .success

section Topups

variable {s s' : Store}

/-- A top-up newly delivered between `s` and `s'` owns the attempt `o`. -/
def Delivers (o : Option Attempt) (s s' : Store) : Prop :=
  ∀ t' ∈ s'.topups.rows, t'.delivered →
    (∃ t ∈ s.topups.rows, t.id = t'.id ∧ t.status = t'.status) ∨
      ∃ a ∈ o, a.owner = .topup t'.id

variable {o : Option Attempt}

/-- What one transaction may do to a top-up, `o` being the attempt it settles: the row keeps its
place, failing is for good, and only the owner of `o` is newly delivered. -/
structure TopupRow.Moved (o : Option Attempt) (t t' : TopupRow) : Prop where
  id : t.id = t'.id
  chainId : t.chainId = t'.chainId
  signer : t.signer = t'.signer
  failed : t.status = .failed → t'.status = .failed
  delivered : t'.delivered → t.status = t'.status ∨ ∃ a ∈ o, a.owner = .topup t'.id

theorem TopupRow.Moved.rfl' (t : TopupRow) : t.Moved o t :=
  ⟨rfl,rfl,rfl,fun h => h,fun _ => .inl rfl⟩

theorem TopupRow.Moved.trans {t u t' : TopupRow} (h : t.Moved o u) (h' : u.Moved o t') :
    t.Moved o t' where
  id := h.id.trans h'.id
  chainId := h.chainId.trans h'.chainId
  signer := h.signer.trans h'.signer
  failed := fun hf => h'.failed (h.failed hf)
  delivered := by
    intro hd
    obtain hst | hown := h'.delivered hd
    · have hu : u.delivered := by unfold TopupRow.delivered; rwa [hst]
      obtain hst' | hown := h.delivered hu
      · exact .inl (hst'.trans hst)
      · exact .inr (h'.id ▸ hown)
    · exact .inr hown

/-- Every row comes from one that it moved from; none is new. -/
def TopupsMoved (o : Option Attempt) (s s' : Store) : Prop :=
  ∀ t' ∈ s'.topups.rows, ∃ t ∈ s.topups.rows, t.Moved o t'

theorem TopupsMoved.of_eq (h : s'.topups = s.topups) : TopupsMoved o s s' :=
  fun t' ht' => ⟨t',h ▸ ht',.rfl' t'⟩

theorem TopupsMoved.trans {m : Store} (h : TopupsMoved o s m) (h' : TopupsMoved o m s') :
    TopupsMoved o s s' := by
  intro t' ht'
  obtain ⟨u,hu,hmoved'⟩ := h' t' ht'
  obtain ⟨t,ht,hmoved⟩ := h u hu
  exact ⟨t,ht,hmoved.trans hmoved'⟩

theorem TopupsMoved.of_rewrite {p : TopupRow → Bool} {f : TopupRow → TopupRow}
    (h : s'.topups.rows = s.topups.rows.map (rewrite p f))
    (hf : ∀ t, p t = true → t.Moved o (f t)) : TopupsMoved o s s' := by
  intro t' ht'
  rw [h] at ht'
  obtain ⟨t,ht,rfl⟩ := List.mem_map.mp ht'
  by_cases hp : p t = true
  · rw [rewrite_of hp]
    exact ⟨t,ht,hf t hp⟩
  · rw [rewrite_of_not hp]
    exact ⟨t,ht,.rfl' t⟩

theorem TopupRow.whereIn_eq_true {id : Uuid} {sts : List TopupStatus} {t : TopupRow} :
    TopupRow.whereIn id sts t = true ↔ t.id = id ∧ t.status ∈ sts := by
  simp [TopupRow.whereIn]

/-- The guard `status IN (..)` without `failed`. -/
theorem not_failed_of_whereIn {id : Uuid} {sts : List TopupStatus} {t : TopupRow}
    (h : TopupRow.whereIn id sts t = true) (hsts : .failed ∉ sts) : t.status ≠ .failed := by
  intro hf
  have hmem := (TopupRow.whereIn_eq_true.mp h).2
  rw [hf] at hmem
  exact hsts hmem

theorem moveOwner_topups {a : Attempt} {kind : BindKind} {m : Store}
    (h : moveOwner s a kind = some m) : TopupsMoved o s m := by
  unfold moveOwner at h
  split at h <;> obtain ⟨⟨r,u⟩,hu,rfl⟩ := Option.map_eq_some_iff.mp h
  · exact .of_eq rfl
  · exact .of_eq rfl
  · exact .of_eq rfl
  · obtain ⟨-,rfl⟩ := Table.updateReturning_eq_some hu
    refine .of_rewrite rfl fun t hp => ⟨rfl,rfl,rfl,?_,?_⟩
    · intro hf
      exact absurd hf (not_failed_of_whereIn hp (by decide))
    · intro hd
      simp [TopupRow.delivered] at hd
  · obtain ⟨-,rfl⟩ := Table.updateReturning_eq_some hu
    exact .of_rewrite rfl fun t _ => .rfl' t

theorem voidOwner_topups (s : Store) (owner : SlotOwner) (disposition : VoidDisposition)
    (now : Nat) : TopupsMoved o s (voidOwner s owner disposition now) := by
  unfold voidOwner
  split
  · exact .of_eq rfl
  · split
    · exact .of_eq rfl
    · exact .of_eq rfl
  · refine .of_rewrite rfl fun t _ => ⟨rfl,rfl,rfl,fun _ => rfl,?_⟩
    intro hd
    simp [TopupRow.delivered,TopupRow.toRejected] at hd

theorem failJob_topups (s : Store) (id : JobId) (allowed : List JobStatus)
    (failure : JobFailure) (message : String) (revertData : Option Bytes) :
    TopupsMoved o s (failJob s id allowed failure message revertData).2 := by
  unfold failJob
  split
  · exact .of_eq rfl
  · exact .of_eq rfl

theorem demoteInclusion_topups (s : Store) (a : Attempt) :
    TopupsMoved o s (demoteInclusion s a).2 := by
  obtain h | ⟨-,h⟩ := demoteInclusion_spec s a
  · rw [h]
    exact .of_eq rfl
  · refine .of_rewrite h.topups fun t hp => ⟨rfl,rfl,rfl,?_,?_⟩
    · intro hf
      simp [hf] at hp
    · intro hd
      simp [TopupRow.delivered] at hd

theorem confirmInTx_topups (s : Store) (a : Attempt) :
    TopupsMoved (some a) s (confirmInTx s a).2 := by
  unfold confirmInTx
  split
  · exact .of_eq rfl
  · dsimp only
    unfold confirmOwner
    split
    · split
      · exact .of_eq rfl
      · exact .of_eq rfl
    · split
      · exact .of_eq rfl
      · exact .of_eq rfl
    · next id ho =>
      refine .of_rewrite rfl fun t hp => ⟨rfl,rfl,rfl,?_,?_⟩
      · intro hf
        exact absurd hf (not_failed_of_whereIn hp (by decide))
      · intro _
        have hid : t.id = id := (TopupRow.whereIn_eq_true.mp hp).1
        exact .inr ⟨a,rfl,hid ▸ ho⟩

theorem settleInclusion_topups {a : Attempt} {inc : Inclusion} {confirmNow : Bool}
    {st : Settled} (h : settleInclusion s a inc confirmNow false = .ok (st,s')) :
    TopupsMoved (some a) s s' := by
  obtain ⟨-,rfl⟩ | ⟨-,m,hm,rfl⟩ := settleInclusion_spec h
  · exact .of_eq rfl
  · have hmid : TopupsMoved (some a) s m := by
      refine .of_rewrite hm.topups fun t hp => ?_
      simp only [Bool.and_eq_true,decide_eq_true_eq] at hp
      refine ⟨rfl,rfl,rfl,?_,fun _ => .inr ⟨a,rfl,hp.1⟩⟩
      intro hf
      rw [hp.2] at hf
      cases hf
    split
    · exact hmid.trans (confirmInTx_topups m a)
    · exact hmid

/-- Every transaction of the pipeline but `create_topup` moves the rows that there are. -/
theorem Op.topups_moved (s : Store) (op : Op) (hop : ∀ id c t g n, op ≠ .createTopup id c t g n) :
    TopupsMoved op.settled s (op.apply s) := by
  have hself : TopupsMoved op.settled s s := .of_eq rfl
  cases op with
  | insertJob id request =>
    refine Store.commit_cases hself ?_
    intro s' h
    unfold GumEngine.insertJob at h
    split at h
    · cases h
    · cases h
      exact .of_eq rfl
  | createTopup id chainId treasury signer amount => exact absurd rfl (hop _ _ _ _ _)
  | bindAttempt epoch a kind =>
    refine Store.commit_cases hself ?_
    intro s' h
    unfold GumEngine.bindAttempt at h
    repeat' split at h
    all_goals cases h
    next moved hm => exact (moveOwner_topups hm).trans (.of_eq rfl)
  | settleInclusion a inc confirmNow =>
    exact Store.commit_map_cases hself fun st s' h => settleInclusion_topups h
  | settleConfirmation a => exact confirmInTx_topups s a
  | updateInclusionBlock a number hash receipt =>
    refine .of_eq ?_
    show (GumEngine.updateInclusionBlock s a number hash receipt).topups = s.topups
    unfold GumEngine.updateInclusionBlock
    dsimp only
    split <;> rfl
  | demoteInclusion a => exact demoteInclusion_topups s a
  | voidBinding epoch a mode disposition now =>
    refine Store.commit_cases hself ?_
    intro s' h
    unfold GumEngine.voidBinding at h
    dsimp only at h
    split at h
    · cases h
    · cases h
      refine TopupsMoved.trans (.of_eq ?_) (voidOwner_topups _ a.owner disposition now)
      split <;> rfl
  | failJob id allowed failure message revertData => exact failJob_topups s _ _ _ _ _
  | requeueFront id now =>
    refine Store.commit_map_cases hself ?_
    intro n s' h
    unfold GumEngine.requeueFront at h
    split at h
    · cases h
    · cases h
      exact .of_eq rfl
  | cancelQueued id => exact failJob_topups s _ _ _ _ _
  | acquire => exact .of_eq rfl

theorem TopupsMoved.delivers (h : TopupsMoved o s s') : Delivers o s s' := by
  intro t' ht' hd
  obtain ⟨t,ht,hmoved⟩ := h t' ht'
  obtain hst | hown := hmoved.delivered hd
  · exact .inl ⟨t,ht,hmoved.id,hst⟩
  · exact .inr hown

/-- Whatever the transaction, a top-up it newly delivers owns the attempt it settles. -/
theorem Op.delivers (s : Store) (op : Op) : Delivers op.settled s (op.apply s) := by
  by_cases hop : ∀ id c t g n, op ≠ .createTopup id c t g n
  · exact (op.topups_moved s hop).delivers
  · push Not at hop
    obtain ⟨id,chainId,treasury,signer,amount,rfl⟩ := hop
    have hself : TopupsMoved none s s := .of_eq rfl
    refine Store.commit_cases hself.delivers ?_
    intro s' h
    unfold GumEngine.createTopup at h
    split at h
    · cases h
    · next topups hins =>
      cases h
      intro t' ht' hd
      rw [show topups.rows = _ from (Table.insert_eq_some hins).1] at ht'
      -- the new row is only requested
      obtain ht' | ht' := List.mem_append.mp ht'
      · exact .inl ⟨t',ht',rfl,rfl⟩
      · rw [List.mem_singleton.mp ht'] at hd
        simp [TopupRow.delivered] at hd

end Topups

/-- No cancel is bound at the nonce of a top-up, and its transfers carry their purpose. -/
def Op.NoCancel : Op → Prop
  | bindAttempt _ a kind => ∀ id, a.owner = .topup id → kind ≠ .cancel ∧ a.purpose = .topup
  | _ => True

/-- Every stored attempt of a top-up is a transfer. -/
def TransfersOnly (s : Store) : Prop :=
  ∀ r ∈ s.txAttempts.rows, ∀ id, r.topupId = some id → r.purpose = .topup

theorem TransfersOnly.of_kept {s s' : Store} (h : TransfersOnly s) (hk : Kept s s') :
    TransfersOnly s' := by
  obtain ⟨F,hF,hrows⟩ := hk.attempts
  intro r hr id hid
  rw [hrows] at hr
  obtain ⟨x,hx,rfl⟩ := List.mem_map.mp hr
  rw [(hF.same x).purpose]
  exact h x hx id ((hF.same x).topupId ▸ hid)

theorem TransfersOnly.step {s : Store} {op : Op} (h : TransfersOnly s) (hop : op.NoCancel) :
    TransfersOnly (op.apply s) := by
  by_cases hu : op.Unfenced = true
  · exact h.of_kept (Op.unfenced_kept hu)
  · cases op with
    | bindAttempt epoch a kind =>
      refine Store.commit_cases h ?_
      intro s' hs r hr id hid
      rw [(bindAttempt_spec hs).attempts] at hr
      rcases List.mem_append.mp hr with hr | hr
      · exact h r hr id hid
      · obtain rfl := List.mem_singleton.mp hr
        have ho : a.owner = .topup id := by
          cases hown : a.owner with
          | job i => simp [AttemptRow.ofAttempt,hown,SlotOwner.topupId] at hid
          | topup i => simp_all [AttemptRow.ofAttempt,SlotOwner.topupId]
        exact (hop id ho).2
    | voidBinding epoch a mode disposition now =>
      refine Store.commit_cases h ?_
      intro s' hs r hr id hid
      rw [(voidBinding_spec hs).attempts] at hr
      obtain ⟨x,hx,rfl⟩ := List.mem_map.mp hr
      rw [(dropRow_same a.slot x).purpose]
      exact h x hx id ((dropRow_same a.slot x).topupId ▸ hid)
    | acquire => exact h
    | _ => exact absurd rfl hu

/-- An attempt of a top-up that has a row is a transfer. -/
theorem TransfersOnly.purpose {s : Store} (h : TransfersOnly s) {a : Attempt} {r : AttemptRow}
    {id : Uuid} (hr : r ∈ s.txAttempts.rows) (hof : r.IsOf a) (ho : a.owner = .topup id) :
    a.purpose = .topup := by
  rw [← hof.purpose]
  refine h r hr id ?_
  rw [hof.topupId,ho]
  rfl

/-- A settlement of an attempt that has no row changes nothing. -/
theorem Op.settled_absent {s : Store} {op : Op} {a : Attempt} (ha : a ∈ op.settled)
    (hno : ∀ r ∈ s.txAttempts.rows, r.id ≠ a.id) : op.apply s = s := by
  have hnone : ∀ st, s.txAttempts.rows.any (AttemptRow.whereIn a.id [st]) = false := by
    intro st
    rw [List.any_eq_false]
    intro r hr
    simp [AttemptRow.whereIn,hno r hr]
  cases op with
  | settleInclusion b inc confirmNow =>
    obtain rfl : b = a := Option.some.inj ha
    simp [Op.apply,GumEngine.settleInclusion,hnone,Except.map,Store.commit]
  | settleConfirmation b =>
    obtain rfl : b = a := Option.some.inj ha
    simp [Op.apply,GumEngine.settleConfirmation,confirmInTx,hnone]
  | _ => cases ha

/-- In every run that never binds a cancel at a treasury nonce, a top-up is delivered by
its own transfer only, and `fund` credits and answers `Ok` for that alone. -/
theorem topup_delivered_own {s : Store}
    (h : (pipeline.restrict fun _ op => op.NoCancel).Reaches Store.empty s) :
    (∀ op, pipeline.allowed s op → DeliversOwn s op) ∧
      ∀ store signer cfg request r,
        (∀ a inc, r.outcome = .mined a inc → ∃ x ∈ s.txAttempts.rows, x.IsOf a ∧
          ∃ id, a.owner = .topup id) →
        CreditsOwn store signer cfg request r := by
  have hT : TransfersOnly s := by
    refine h.invariant (fun r hr => by cases hr) ?_
    intro s op hs hop
    exact hs.step hop.2
  refine ⟨?_,?_⟩
  · intro op hop t' ht' hd
    rcases op.delivers s t' ht' hd with hold | ⟨a,ha,ho⟩
    · exact .inl hold
    · by_cases hrow : ∃ r ∈ s.txAttempts.rows, r.id = a.id
      · obtain ⟨r,hr,hid⟩ := hrow
        have hn : a.Names s := by
          cases op with
          | settleInclusion b inc confirmNow =>
            obtain rfl : b = a := Option.some.inj ha
            exact hop
          | settleConfirmation b =>
            obtain rfl : b = a := Option.some.inj ha
            exact hop
          | _ => cases ha
        exact .inr ⟨a,ha,ho,hT.purpose hr (hn r hr hid) ho⟩
      · left
        rw [Op.settled_absent ha (fun r hr hid => hrow ⟨r,hr,hid⟩)] at ht'
        exact ⟨t',ht',rfl,rfl⟩
  · intro store signer cfg request r hstored a inc hout hneed hpaid
    obtain ⟨x,hx,hof,id,ho⟩ := hstored a inc hout
    refine ⟨hT.purpose hx hof ho,?_⟩
    by_contra hne
    -- every branch but the last refuses; the last one checks the outcome
    have hcov : ¬ r.covered ≥ request.needed := Nat.not_le.mpr hneed
    unfold fund at hpaid
    repeat' split at hpaid
    all_goals simp_all [Funded.refused,fundOutcome]

namespace Sample

/-- A top-up of signer 7 whose transfer is bound at nonce 0 of the treasury 9. -/
def topupOps : List Op :=
  [.createTopup 1 1 9 7 5,.bindAttempt 0 (attempt 3 0 .topup (.topup 1)) .first]

/-- A signer without funds; nothing keeps the treasury from sending. -/
def fundReads (outcome : Driven) : FundReads :=
  ⟨none,true,0,.ok false,.ok 0,.ok (),.ok 21000,.ok 1,true,outcome⟩

def treasuryConfig : TreasuryConfig := ⟨5,5,10⟩

end Sample

theorem topup_delivered_own_transfer :
    let s := Sample.topupOps.foldl (fun s op => op.apply s) Store.empty
    let transfer := Sample.attempt 3 0 .topup (.topup 1)
    let settle := Op.settleInclusion transfer (Sample.inclusion 3 10 100) false
    (settle.apply s).topups.rows.map (·.status) = [.included] ∧ DeliversOwn s settle ∧
      CreditsOwn (fun _ => "") (fun _ => "") Sample.treasuryConfig ⟨7,5,0⟩
        (Sample.fundReads (.mined transfer (Sample.inclusion 3 10 100))) := by
  intro s transfer settle
  have hrun : (pipeline.restrict fun _ op => op.NoCancel).Runs Store.empty Sample.topupOps :=
    ⟨⟨trivial,trivial⟩,⟨by decide,fun _ _ => ⟨by decide,rfl⟩⟩,trivial⟩
  have h := topup_delivered_own hrun.reaches
  refine ⟨by decide,h.1 settle (by decide),h.2 _ _ _ _ _ ?_⟩
  rintro a inc hm
  obtain ⟨rfl,rfl⟩ := Driven.mined.inj hm
  exact ⟨.ofAttempt transfer,by decide,AttemptRow.ofAttempt_isOf transfer,1,rfl⟩

/-- The transfer is stuck and cancelled, and the cancel is mined: the top-up counts as
included and the signer is credited all the same. -/
theorem cancel_delivers_topup :
    let cancel := Sample.attempt 4 0 .cancel (.topup 1)
    let ops := Sample.topupOps ++ [.bindAttempt 0 cancel .cancel]
    let s := ops.foldl (fun s op => op.apply s) Store.empty
    let settle := Op.settleInclusion cancel (Sample.inclusion 4 10 100) false
    pipeline.Reaches Store.empty s ∧ pipeline.allowed s settle ∧ ¬ DeliversOwn s settle ∧
      ¬ CreditsOwn (fun _ => "") (fun _ => "") Sample.treasuryConfig ⟨7,5,0⟩
        (Sample.fundReads (.mined cancel (Sample.inclusion 4 10 100))) := by
  intro cancel ops s settle
  have hrun : pipeline.Runs Store.empty ops := by decide
  refine ⟨hrun.reaches,by decide,?_,?_⟩
  · intro h
    rcases h ⟨1,1,9,7,5,.included,none⟩ (by decide) (.inl rfl) with ⟨t,ht,-,hst⟩ | ⟨a,ha,-,hp⟩
    · have hall : ∀ t ∈ s.topups.rows, t.status = .sent := by decide
      rw [hall t ht] at hst
      cases hst
    · obtain rfl : cancel = a := Option.some.inj ha
      cases hp
  · intro h
    cases (h cancel _ rfl (by decide) (.inr rfl)).1

end GumEngine
