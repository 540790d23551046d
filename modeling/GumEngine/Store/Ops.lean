import GumEngine.Store.Spec
import GumEngine.Transition.Machine

/-!
# Runs of the store

Any number of engine instances issue transactions against one database. A run of the
store is the order in which they commit; a transaction that fails leaves no trace.
-/

namespace GumEngine
open Relational Transition

/-- The transactions of the pipeline and the API, and a new leader's epoch. -/
inductive Op
  | insertJob (id : JobId) (request : JobRequest)
  | createTopup (id : Uuid) (chainId : ChainId) (treasury signer : Address) (amount : U256)
  | bindAttempt (epoch : Int) (attempt : Attempt) (kind : BindKind)
  | settleInclusion (attempt : Attempt) (inc : Inclusion) (confirmNow : Bool)
  | settleConfirmation (attempt : Attempt)
  | updateInclusionBlock (attempt : Attempt) (number : Nat) (hash : B256) (receipt : Receipt)
  | demoteInclusion (attempt : Attempt)
  | voidBinding (epoch : Int) (attempt : Attempt) (mode : VoidMode)
      (disposition : VoidDisposition) (now : Nat)
  | failJob (id : JobId) (allowed : List JobStatus) (failure : JobFailure) (message : String)
      (revertData : Option Bytes)
  | requeueFront (id : JobId) (now : Nat)
  | cancelQueued (id : JobId)
  | acquire
deriving DecidableEq

/-- The store after a transaction that answered `r`. -/
def Store.commit (s : Store) : Except StoreError Store → Store
  | .ok s' => s'
  | .error _ => s

/-- The settle queue always passes `reincluded = false`; `enqueue` finds out itself. -/
def Op.apply (s : Store) : Op → Store
  | insertJob id request => s.commit (GumEngine.insertJob s id request)
  | createTopup id chainId treasury signer amount =>
    s.commit (GumEngine.createTopup s id chainId treasury signer amount)
  | bindAttempt epoch attempt kind => s.commit (GumEngine.bindAttempt s epoch attempt kind)
  | settleInclusion attempt inc confirmNow =>
    s.commit ((GumEngine.settleInclusion s attempt inc confirmNow false).map (·.2))
  | settleConfirmation attempt => (GumEngine.settleConfirmation s attempt).2
  | updateInclusionBlock attempt number hash receipt =>
    GumEngine.updateInclusionBlock s attempt number hash receipt
  | demoteInclusion attempt => (GumEngine.demoteInclusion s attempt).2
  | voidBinding epoch attempt mode disposition now =>
    s.commit (GumEngine.voidBinding s epoch attempt mode disposition now)
  | failJob id allowed failure message revertData =>
    (GumEngine.failJob s id allowed failure message revertData).2
  | requeueFront id now => s.commit ((GumEngine.requeueFront s id now).map (·.2))
  | cancelQueued id => (GumEngine.cancelQueued s id).2
  | acquire => { s with leaseEpoch := s.leaseEpoch + 1 }

theorem Store.commit_cases {I : Store → Prop} {s : Store} {r : Except StoreError Store}
    (hs : I s) (hr : ∀ s', r = .ok s' → I s') : I (s.commit r) := by
  cases r with
  | error e => exact hs
  | ok s' => exact hr s' rfl

theorem Store.commit_map_cases {α : Type} {I : Store → Prop} {s : Store}
    {r : Except StoreError (α × Store)} (hs : I s) (hr : ∀ x s', r = .ok (x,s') → I s') :
    I (s.commit (r.map (·.2))) := by
  cases r with
  | error e => exact hs
  | ok p => exact hr p.1 p.2 rfl

/-- `fail_job` is never asked to fail a job that is already terminal. -/
def Op.FailsLive : Op → Prop
  | failJob _ allowed _ _ _ => ∀ st ∈ allowed, st.isTerminal = false
  | _ => True

instance : DecidablePred Op.FailsLive
  | .failJob _ allowed _ _ _ =>
    inferInstanceAs (Decidable (∀ st ∈ allowed, st.isTerminal = false))
  | .insertJob _ _ | .createTopup _ _ _ _ _ | .bindAttempt _ _ _ | .settleInclusion _ _ _
  | .settleConfirmation _ | .updateInclusionBlock _ _ _ _ | .demoteInclusion _
  | .voidBinding _ _ _ _ _ | .requeueFront _ _ | .cancelQueued _ | .acquire => .isTrue trivial

/-- What survives every change of jobs, outbox and rollup survives every transaction. -/
theorem Op.outbox_rule {I : Store → Prop} (hI : ∀ s s', I s → JobsEffect s s' → I s')
    {s : Store} {op : Op} (hop : op.FailsLive) (hs : I s) : I (op.apply s) := by
  have hconfirm : ∀ m a, I m → I (confirmInTx m a).2 := by
    intro m a hm
    rcases confirmInTx_spec m a with h | ⟨-,h⟩
    · rwa [h]
    · exact hI _ _ hm h.outbox
  cases op with
  | insertJob id request =>
    exact Store.commit_cases hs fun s' h => hI _ _ hs (insertJob_spec h).2.2.2
  | createTopup id chainId treasury signer amount =>
    exact Store.commit_cases hs fun s' h => hI _ _ hs (createTopup_spec h).2.2
  | bindAttempt epoch a kind =>
    exact Store.commit_cases hs fun s' h => hI _ _ hs (bindAttempt_spec h).outbox
  | settleInclusion a inc confirmNow =>
    refine Store.commit_map_cases hs fun st s' h => ?_
    rcases settleInclusion_spec h with ⟨-,rfl⟩ | ⟨-,m,hm,rfl⟩
    · exact hs
    · have hIm := hI _ _ hs hm.outbox
      split
      · exact hconfirm m a hIm
      · exact hIm
  | settleConfirmation a => exact hconfirm s a hs
  | updateInclusionBlock a number hash receipt =>
    exact hI _ _ hs (updateInclusionBlock_spec s a number hash receipt).outbox
  | demoteInclusion a =>
    show I (GumEngine.demoteInclusion s a).2
    rcases demoteInclusion_spec s a with h | ⟨-,h⟩
    · rwa [h]
    · exact hI _ _ hs h.outbox
  | voidBinding epoch a mode disposition now =>
    exact Store.commit_cases hs fun s' h => hI _ _ hs (voidBinding_spec h).outbox
  | failJob id allowed failure message revertData => exact hI _ _ hs (failJob_spec _ _ _ _ hop).1
  | requeueFront id now =>
    exact Store.commit_map_cases hs fun n s' h => hI _ _ hs (requeueFront_spec h).2.1
  | cancelQueued id => exact hI _ _ hs (failJob_spec _ _ _ _ (by decide)).1
  | acquire => exact hI _ _ hs (.none rfl rfl rfl)

/-- Transactions without an epoch gate; any instance may run them at any time. -/
def Op.Unfenced : Op → Bool
  | bindAttempt _ _ _ | voidBinding _ _ _ _ _ | acquire => false
  | _ => true

/-- Attempts are rewritten in place, none added and none lost; slots and epoch are kept. -/
structure Kept (s s' : Store) : Prop where
  attempts : ∃ F, AttemptRow.Gentle F ∧ s'.txAttempts.rows = s.txAttempts.rows.map F
  slots : s'.nonceSlots = s.nonceSlots
  epoch : s'.leaseEpoch = s.leaseEpoch

theorem JobsOnly.kept {s s' : Store} (h : JobsOnly s s') : Kept s s' :=
  ⟨⟨fun r => r,.id',by rw [h.attempts,List.map_id']⟩,h.slots,h.epoch⟩

theorem Kept.trans {s m s' : Store} (h : Kept s m) (h' : Kept m s') : Kept s s' := by
  obtain ⟨⟨F,hF,hm⟩,hs,he⟩ := h
  obtain ⟨⟨G,hG,hm'⟩,hs',he'⟩ := h'
  refine ⟨⟨fun r => G (F r),hG.comp hF,?_⟩,hs'.trans hs,he'.trans he⟩
  rw [hm',hm,List.map_map]
  rfl

theorem confirmInTx_kept (s : Store) (a : Attempt) : Kept s (confirmInTx s a).2 := by
  rcases confirmInTx_spec s a with h | ⟨-,h⟩
  · rw [h]
    exact (JobsOnly.rfl' s).kept
  · exact ⟨⟨_,confirmRow_gentle a,h.attempts⟩,h.slots,h.epoch⟩

theorem demoteInclusion_kept (s : Store) (a : Attempt) :
    Kept s (GumEngine.demoteInclusion s a).2 := by
  rcases demoteInclusion_spec s a with h | ⟨-,h⟩
  · rw [h]
    exact (JobsOnly.rfl' s).kept
  · exact ⟨⟨_,demoteRow_gentle a,h.attempts⟩,h.slots,h.epoch⟩

/-- An unfenced transaction leaves slots and epoch alone and only rewrites attempts. -/
theorem Op.unfenced_kept {s : Store} {op : Op} (hop : op.Unfenced = true) :
    Kept s (op.apply s) := by
  have hself := (JobsOnly.rfl' s).kept
  cases op with
  | insertJob id request =>
    exact Store.commit_cases hself fun s' h => (insertJob_spec h).1.kept
  | createTopup id chainId treasury signer amount =>
    exact Store.commit_cases hself fun s' h => (createTopup_spec h).1.kept
  | bindAttempt epoch a kind => cases hop
  | settleInclusion a inc confirmNow =>
    refine Store.commit_map_cases hself fun st s' h => ?_
    rcases settleInclusion_spec h with ⟨-,rfl⟩ | ⟨-,m,hm,rfl⟩
    · exact hself
    · have hk : Kept s m := ⟨⟨_,settleRow_gentle a inc,hm.attempts⟩,hm.slots,hm.epoch⟩
      split
      · exact hk.trans (confirmInTx_kept m a)
      · exact hk
  | settleConfirmation a => exact confirmInTx_kept s a
  | updateInclusionBlock a number hash receipt =>
    have h := updateInclusionBlock_spec s a number hash receipt
    exact ⟨⟨_,moveRow_gentle a number hash,h.attempts⟩,h.slots,h.epoch⟩
  | demoteInclusion a => exact demoteInclusion_kept s a
  | voidBinding epoch a mode disposition now => cases hop
  | failJob id allowed failure message revertData => exact (failJob_only s _ _ _ _ _).kept
  | requeueFront id now =>
    exact Store.commit_map_cases hself fun n s' h => (requeueFront_spec h).1.kept
  | cancelQueued id => exact (failJob_only s _ _ _ _ _).kept
  | acquire => cases hop

/-- The store under every order of commits, `fail_job` being used as above. -/
def commits : Machine Store Op where
  allowed _ op := op.FailsLive
  step s op := op.apply s

instance (s : Store) (op : Op) : Decidable (commits.allowed s op) :=
  inferInstanceAs (Decidable op.FailsLive)

namespace Sample

/-- A plain transfer on chain 1. -/
def request : JobRequest := ⟨1,7,[],5,none,none,"https://hook"⟩

/-- The attempt with this id and hash, for the nonce `nonce` of signer 9. -/
def attempt (id nonce : Nat) (purpose : AttemptPurpose) (owner : SlotOwner) : Attempt where
  id := id
  chainId := 1
  signer := 9
  nonce := nonce
  purpose := purpose
  owner := owner
  txHash := id
  rawTx := [UInt8.ofNat id]
  gasLimit := 21000
  maxFeePerGas := 10
  maxPriorityFeePerGas := 1
  value := 5
  status := .broadcast
  blockNumber := none
  blockHash := none

def receipt (hash number blockHash : Nat) : Receipt :=
  ⟨hash,some number,some blockHash,some 1,21000,some 10,[]⟩

/-- The inclusion of the transaction with this hash. -/
def inclusion (hash number blockHash : Nat) : Inclusion :=
  ⟨hash,number,blockHash,.success,21000,10,210000,none,receipt hash number blockHash⟩

end Sample

end GumEngine
