import GumEngine.Pipeline.Marks

/-!
# What is signed

`sign`, `replace_with_fresh_fees`, `cancel` and `decode_target` of `pipeline/tx.rs` and
`SignerHandle::sign` of `signer.rs`: which transaction the bytes of an attempt are. A job is
signed from its request once; whatever is signed for it later, also after a restart, is decoded
from stored bytes or is a transfer of nothing from the signer to itself.
-/

namespace GumEngine
open Relational Transition

/-- Everything needed to build an EIP-1559 transaction; assembled by the pipeline, never by the
signer. -/
structure TxFields where
  chainId : ChainId
  nonce : Nat
  toAddr : Address
  data : Bytes
  value : U256
  gasLimit : Nat
  maxFeePerGas : Nat
  maxPriorityFeePerGas : Nat
deriving DecidableEq

/-- What the engine uses of alloy. A signature is made with the key of an address; those of a
KMS differ from one call to the next, so the last argument of `signTransaction` is the
randomness. -/
structure Alloy (Sig : Type) where
  signTransaction : Address → TxFields → Nat → Sig
  encoded2718 : TxFields → Sig → Bytes
  txHash : TxFields → Sig → B256
  decode2718 : Bytes → Option (TxFields × Sig)

variable {Sig : Type}

/-- `decode_2718` inverts `encoded_2718` on signed transactions. -/
def Alloy.Inverts (alloy : Alloy Sig) : Prop :=
  ∀ f sig, alloy.decode2718 (alloy.encoded2718 f sig) = some (f,sig)

structure SignedTx where
  hash : B256
  raw : Bytes
deriving DecidableEq

/-- `SignerHandle::sign` -/
def Alloy.sign (alloy : Alloy Sig) (signer : Address) (f : TxFields) (random : Nat) : SignedTx :=
  let sig := alloy.signTransaction signer f random
  ⟨alloy.txHash f sig,alloy.encoded2718 f sig⟩

structure TxIntent where
  owner : SlotOwner
  purpose : AttemptPurpose
  toAddr : Address
  data : Bytes
  value : U256
  gasLimit : Nat
deriving DecidableEq

/-- What a worker asks for: the caller's call. -/
def TxIntent.ofJob (id : JobId) (r : JobRequest) (gasLimit : Nat) : TxIntent :=
  ⟨.job id,.job,r.toAddr,r.data,r.value,gasLimit⟩

/-- What the treasury asks for. -/
def TxIntent.ofTopup (t : TopupRow) (gasLimit : Nat) : TxIntent :=
  ⟨.topup t.id,.topup,t.signer,[],t.amount,gasLimit⟩

/-- An intent as its caller builds it. The worker's comes from the job it took, which was loaded
from its row or inserted before it was admitted; the caller's gas limit is used as given. -/
def Store.Intends (s : Store) (i : TxIntent) : Prop :=
  match i.owner with
  | .job id => ∃ j ∈ s.jobs.rows, j.id = id ∧ i = .ofJob id j.request i.gasLimit ∧
    ∀ g ∈ j.request.gasLimit, i.gasLimit = g
  | .topup id => ∃ t ∈ s.topups.rows, t.id = id ∧ i = .ofTopup t i.gasLimit

/-- What a signature needs beside the call: a new id, fees, and for a cancel its gas. -/
structure Quote where
  id : Uuid
  random : Nat
  maxFeePerGas : Nat
  maxPriorityFeePerGas : Nat
  gasLimit : Nat
deriving DecidableEq

/-- The part of `TxDriver::sign` that depends on the call. -/
def Quote.signature (alloy : Alloy Sig) (p : PairKey) (nonce : Nat) (toAddr : Address)
    (data : Bytes) (value : U256) (gasLimit : Nat) (q : Quote) : Signature :=
  let signed := alloy.sign p.signer
    ⟨p.chainId,nonce,toAddr,data,value,gasLimit,q.maxFeePerGas,q.maxPriorityFeePerGas⟩ q.random
  { id := q.id
    txHash := signed.hash
    rawTx := signed.raw
    gasLimit := gasLimit
    maxFeePerGas := q.maxFeePerGas
    maxPriorityFeePerGas := q.maxPriorityFeePerGas
    value := value }

/-- Recovers `(to, calldata)` from stored signed bytes. -/
def decodeTarget (alloy : Alloy Sig) (a : Attempt) : Option (Address × Bytes) :=
  (alloy.decode2718 a.rawTx).map fun t => (t.1.toAddr,t.1.data)

/-- The signature `replace_with_fresh_fees` asks for. -/
def InFlight.resigned (alloy : Alloy Sig) (p : PairKey) (f : InFlight) (q : Quote) :
    Option Signature := do
  let original ← f.original
  let (toAddr,data) ← decodeTarget alloy original
  return q.signature alloy p f.nonce toAddr data original.value original.gasLimit

/-- The signature `cancel` asks for. -/
def InFlight.noop (alloy : Alloy Sig) (p : PairKey) (f : InFlight) (q : Quote) : Signature :=
  q.signature alloy p f.nonce p.signer [] 0 q.gasLimit

/-- What happens next to the task of a pair, with what it signs left to the code. -/
inductive CallInput
  | execute (intent : TxIntent) (quoted : Except SignerError Quote)
  | sign (quoted : Option Quote)
  | other (i : Input)

inductive CallEvent
  | op (op : Op)
  | mine (k : Slot) (m : Mined)
  | restart
  | task (p : PairKey) (i : CallInput)

/-- The driver's own input: the bytes are those the code signs. -/
def CallInput.lower (alloy : Alloy Sig) (w : World) (p : PairKey) : CallInput → Input
  | .execute i quoted => .execute i.owner (quoted.map
      (Quote.signature alloy p (w.nextNonce p) i.toAddr i.data i.value i.gasLimit))
  | .sign quoted =>
    match w.tasks p with
    | .replacing f => .sign (quoted.bind (f.resigned alloy p))
    | .cancelling f => .sign (quoted.map (f.noop alloy p))
    | _ => .sign none
  | .other i => i

def CallEvent.lower (alloy : Alloy Sig) (w : World) : CallEvent → Event
  | .op o => .op o
  | .mine k m => .mine k m
  | .restart => .restart
  | .task p i => .task p (i.lower alloy w p)

def Attempt.pair (a : Attempt) : PairKey := ⟨a.chainId,a.signer⟩

/-- How the engine goes about it. Intents are built by the callers of `execute`. An inclusion
comes from `on_receipt`, which ends the driving of its nonce, so none is written while the first
broadcast of the nonce is still under way. -/
def CallEvent.Issued (w : World) : CallEvent → Prop
  | .op (.settleInclusion a _ _) => (w.tasks a.pair).opens ≠ some a.nonce
  | .task _ (.execute i _) => w.store.Intends i
  | .task _ (.other (.execute _ _)) | .task _ (.other (.sign _)) => False
  | _ => True

/-- The driver, signing what the code signs. -/
def caller (alloy : Alloy Sig) (chains : ChainId → ChainKind) : Machine World CallEvent where
  allowed w e := (e.lower alloy w).Possible w ∧ e.Issued w
  step w e := w.step chains (e.lower alloy w)

/-! ## What the database keeps of an attempt -/

/-- The columns of a row that are written once. -/
def AttemptRow.columns (r : AttemptRow) : AttemptRow :=
  { r with
    rawTx := none
    status := .broadcast
    blockNumber := none
    blockHash := none
    gasUsed := none
    feePaid := none }

def Store.columns (s : Store) : List AttemptRow := s.txAttempts.rows.map AttemptRow.columns

section Columns

variable {s s' : Store} {a : Attempt}

theorem Store.columns_map {F : AttemptRow → AttemptRow} (hF : ∀ r, (F r).columns = r.columns)
    (h : s'.txAttempts.rows = s.txAttempts.rows.map F) : s'.columns = s.columns := by
  unfold Store.columns
  rw [h,List.map_map]
  exact List.map_congr_left fun r _ => hF r

theorem Store.columns_same (h : s'.txAttempts = s.txAttempts) : s'.columns = s.columns := by
  unfold Store.columns
  rw [h]

/-- A rewriting that changes none of them. -/
def AttemptRow.Plain (F : AttemptRow → AttemptRow) : Prop := ∀ r, (F r).columns = r.columns

theorem AttemptRow.plain_rewrite {p : AttemptRow → Bool} {f : AttemptRow → AttemptRow}
    (h : Plain f) : Plain (rewrite p f) :=
  rewrite_same AttemptRow.columns fun r _ => h r

theorem settleRow_plain (a : Attempt) (inc : Inclusion) : AttemptRow.Plain (settleRow a inc) := by
  intro r
  refine (AttemptRow.plain_rewrite ?_ _).trans (AttemptRow.plain_rewrite ?_ r)
  · exact fun _ => rfl
  · exact fun _ => rfl

theorem confirmRow_plain (a : Attempt) : AttemptRow.Plain (confirmRow a) := by
  intro r
  refine (AttemptRow.plain_rewrite ?_ _).trans (AttemptRow.plain_rewrite ?_ r)
  · exact fun _ => rfl
  · exact fun _ => rfl

theorem moveRow_plain (a : Attempt) (number : Nat) (hash : B256) :
    AttemptRow.Plain (moveRow a number hash) := by
  refine AttemptRow.plain_rewrite ?_
  intro r
  rfl

theorem demoteRow_plain (a : Attempt) : AttemptRow.Plain (demoteRow a) := by
  refine AttemptRow.plain_rewrite ?_
  intro r
  rfl

theorem dropRow_plain (k : Slot) : AttemptRow.Plain (dropRow k) := by
  refine AttemptRow.plain_rewrite ?_
  intro r
  rfl

theorem confirmInTx_columns (s : Store) (a : Attempt) : (confirmInTx s a).2.columns = s.columns := by
  rcases confirmInTx_spec s a with h | ⟨-,h⟩
  · rw [h]
  · exact Store.columns_map (confirmRow_plain a) h.attempts

theorem demoteInclusion_columns (s : Store) (a : Attempt) :
    (demoteInclusion s a).2.columns = s.columns := by
  rcases demoteInclusion_spec s a with h | ⟨-,h⟩
  · rw [h]
  · exact Store.columns_map (demoteRow_plain a) h.attempts

theorem Voids.columns {epoch : Int} {mode : VoidMode} {disposition : VoidDisposition} {now : Nat}
    (h : Voids s epoch a mode disposition now s') : s'.columns = s.columns :=
  Store.columns_map (dropRow_plain a.slot) h.attempts

theorem Bound.columns {epoch : Int} {kind : BindKind} (h : Bound s epoch a kind s') :
    s'.columns = s.columns ++ [(AttemptRow.ofAttempt a).columns] := by
  unfold Store.columns
  rw [h.attempts,List.map_append]
  rfl

/-- Only a bind adds to them, and nothing changes them. -/
theorem Op.unfenced_columns {op : Op} (hop : op.Unfenced = true) (s : Store) :
    (op.apply s).columns = s.columns := by
  have hcommit : ∀ r : Except StoreError Store, (∀ s', r = .ok s' → s'.columns = s.columns) →
      (s.commit r).columns = s.columns :=
    fun r hr => Store.commit_cases (I := fun s' => s'.columns = s.columns) rfl hr
  cases op with
  | insertJob id request =>
    exact hcommit _ fun s' h => Store.columns_same (insertJob_spec h).1.attempts
  | createTopup id chainId treasury signer amount =>
    exact hcommit _ fun s' h => Store.columns_same (createTopup_spec h).1.attempts
  | bindAttempt epoch a kind => cases hop
  | settleInclusion a inc confirmNow =>
    refine Store.commit_map_cases (I := fun s' => s'.columns = s.columns) rfl fun st s' h => ?_
    rcases settleInclusion_spec h with ⟨-,rfl⟩ | ⟨-,m,hm,rfl⟩
    · rfl
    · have hcols : m.columns = s.columns := Store.columns_map (settleRow_plain a inc) hm.attempts
      split
      · exact (confirmInTx_columns m a).trans hcols
      · exact hcols
  | settleConfirmation a => exact confirmInTx_columns s a
  | updateInclusionBlock a number hash receipt =>
    exact Store.columns_map (moveRow_plain a number hash)
      (updateInclusionBlock_spec s a number hash receipt).attempts
  | demoteInclusion a => exact demoteInclusion_columns s a
  | voidBinding epoch a mode disposition now => cases hop
  | failJob id allowed failure message revertData =>
    exact Store.columns_same (failJob_only s _ _ _ _ _).attempts
  | requeueFront id now =>
    exact Store.commit_map_cases (I := fun s' => s'.columns = s.columns) rfl
      fun n s' h => Store.columns_same (requeueFront_spec h).1.attempts
  | cancelQueued id => exact Store.columns_same (failJob_only s _ _ _ _ _).attempts
  | acquire => cases hop

end Columns

/-! ## Whose a nonce is -/

/-- `owner_kind` and `owner_id` -/
def SlotOwner.key (o : SlotOwner) : OwnerKind × Uuid := (o.ownerKind,o.id)

theorem SlotOwner.key_inj {o o' : SlotOwner} (h : o.key = o'.key) : o = o' := by
  cases o <;> cases o' <;> simp_all [SlotOwner.key,SlotOwner.ownerKind,SlotOwner.id]

def Store.holder (s : Store) (k : Slot) : Option (OwnerKind × Uuid) :=
  (s.nonceSlots.rows.find? fun r => r.slot = k).map fun r => (r.ownerKind,r.ownerId)

section Holders

variable {s s' : Store} {a : Attempt}

theorem Store.holder_same (h : s'.nonceSlots = s.nonceSlots) (k : Slot) :
    s'.holder k = s.holder k := by
  unfold Store.holder
  rw [h]

theorem Store.slotOwnerId_eq (s : Store) (k : Slot) : s.slotOwnerId k = (s.holder k).map (·.2) := by
  unfold Store.slotOwnerId Store.holder
  rw [Option.map_map]
  rfl

/-- A first bind takes a free nonce, and only that. -/
theorem Bound.claims {epoch : Int} (h : Bound s epoch a .first s') :
    s.holder a.slot = none ∧ s'.holder a.slot = some a.owner.key ∧
      ∀ k, k ≠ a.slot → s'.holder k = s.holder k := by
  obtain ⟨hrows,hfresh⟩ := Table.insert_eq_some h.slots
  have hnone : s.nonceSlots.rows.find? (fun r => r.slot = a.slot) = none := by
    rw [List.find?_eq_none]
    intro r hr
    simpa using hfresh r hr
  refine ⟨?_,?_,?_⟩
  · rw [Store.holder,hnone]
    rfl
  · rw [Store.holder,hrows,List.find?_append,hnone]
    simp [SlotOwner.key]
  · intro k hk
    rw [Store.holder,hrows,List.find?_append,Store.holder]
    cases s.nonceSlots.rows.find? fun r => r.slot = k with
    | some r => rfl
    | none => simp [Ne.symm hk]

/-- A further bind finds the nonce under the id of its owner. -/
theorem Bound.again {epoch : Int} {kind : BindKind} (h : Bound s epoch a kind s')
    (hk : kind ≠ .first) :
    (∃ x, s.holder a.slot = some (x,a.owner.id)) ∧ ∀ k, s'.holder k = s.holder k := by
  have hown := claimSlot_again h.slots hk
  rw [Store.slotOwnerId_eq,Option.map_eq_some_iff] at hown
  obtain ⟨⟨x,i⟩,hx,rfl⟩ := hown
  refine ⟨⟨x,hx⟩,fun k => Store.holder_same ?_ k⟩
  have hslots := h.slots
  cases kind with
  | first => exact absurd rfl hk
  | replacement =>
    simp only [claimSlot] at hslots
    split at hslots
    · exact (Option.some.inj hslots).symm
    · cases hslots
  | cancel =>
    simp only [claimSlot] at hslots
    split at hslots
    · exact (Option.some.inj hslots).symm
    · cases hslots

/-- A void gives back the nonce of its attempt at most. -/
theorem Voids.releases {epoch : Int} {mode : VoidMode} {disposition : VoidDisposition} {now : Nat}
    (h : Voids s epoch a mode disposition now s') (k : Slot) :
    s'.holder k = s.holder k ∨ k = a.slot ∧ mode = .nonceUnused ∧ s'.holder k = none := by
  by_cases hk : k = a.slot ∧ mode = .nonceUnused
  · obtain ⟨rfl,rfl⟩ := hk
    cases hf : s'.nonceSlots.rows.find? fun r => r.slot = a.slot with
    | none => exact .inr ⟨rfl,rfl,by rw [Store.holder,hf]; rfl⟩
    | some x =>
      left
      have hx : x.slot = a.slot := by simpa using List.find?_some hf
      have hmem := List.mem_of_find?_eq_some hf
      rw [h.slots,List.mem_filter] at hmem
      have hfound : s.nonceSlots.rows.find? (fun r => r.slot = a.slot) = some x := by
        cases hs : s.nonceSlots.rows.find? fun r => r.slot = a.slot with
        | none =>
          rw [List.find?_eq_none] at hs
          exact absurd (by simpa using hx) (hs x hmem.1)
        | some y =>
          have hy : y.slot = a.slot := by simpa using List.find?_some hs
          rw [s.nonceSlots.eq_of_key hmem.1 (List.mem_of_find?_eq_some hs) (hx.trans hy.symm)]
      rw [Store.holder,hf,Store.holder,hfound]
  · left
    unfold Store.holder
    rw [h.slots,List.find?_filter]
    congr 2
    funext r
    by_cases hr : r.slot = k
    · rcases not_and_or.mp hk with hk | hk
      · simp [hr,hk]
      · simp [hr,hk]
    · simp [hr]

end Holders

/-! ## Jobs keep their requests -/

/-- No job is lost, its request is never written again, and a failed job stays failed. -/
def Store.KeepsJobs (s s' : Store) : Prop :=
  ∀ j ∈ s.jobs.rows, ∃ j' ∈ s'.jobs.rows, j'.id = j.id ∧ j'.request = j.request ∧
    (j.status = .failed → j'.status = .failed)

section Jobs

variable {s m s' : Store}

theorem Store.KeepsJobs.rfl' (s : Store) : s.KeepsJobs s :=
  fun j hj => ⟨j,hj,rfl,rfl,fun h => h⟩

theorem Store.KeepsJobs.trans (h : s.KeepsJobs m) (h' : m.KeepsJobs s') : s.KeepsJobs s' := by
  intro j hj
  obtain ⟨j₁,hj₁,hid,hreq,hf⟩ := h j hj
  obtain ⟨j₂,hj₂,hid',hreq',hf'⟩ := h' j₁ hj₁
  exact ⟨j₂,hj₂,hid'.trans hid,hreq'.trans hreq,fun hx => hf' (hf hx)⟩

theorem Store.KeepsJobs.put {j₀ j₁ : JobRow} (hid : j₁.id = j₀.id) (hreq : j₁.request = j₀.request)
    (hlive : j₀.status.isTerminal = false) (hj₀ : j₀ ∈ s.jobs.rows)
    (h : s'.jobs.rows = Keyed.put JobRow.id s.jobs.rows j₀ j₁) : s.KeepsJobs s' := by
  intro j hj
  by_cases hjj : j.id = j₀.id
  · obtain rfl := s.jobs.eq_of_key hj hj₀ hjj
    refine ⟨j₁,?_,hid,hreq,?_⟩
    · rw [h]
      refine List.mem_map.mpr ⟨j,hj,rewrite_of ?_⟩
      simp
    · intro hf
      rw [hf] at hlive
      cases hlive
  · refine ⟨j,?_,rfl,rfl,fun hx => hx⟩
    rw [h]
    refine List.mem_map.mpr ⟨j,hj,rewrite_of_not ?_⟩
    simpa using hjj

theorem JobsEffect.keeps (h : JobsEffect s s') : s.KeepsJobs s' := by
  cases h with
  | none jobs _ _ =>
    intro j hj
    exact ⟨j,by rw [jobs]; exact hj,rfl,rfl,fun hx => hx⟩
  | insert id request _ jobs _ _ =>
    intro j hj
    exact ⟨j,by rw [jobs]; exact List.mem_append_left _ hj,rfl,rfl,fun hx => hx⟩
  | quiet j j' mem move jobs _ _ => exact .put move.id move.request move.before mem jobs
  | emits event j j' mem move jobs _ _ => exact .put move.id move.request move.before mem jobs

theorem Op.Possible.failsLive {w : World} {op : Op} (h : op.Possible w) : op.FailsLive := by
  cases op with
  | failJob id allowed failure message revertData =>
    rintro st hst
    rw [show allowed = [.queued] from h,List.mem_singleton] at hst
    rw [hst]
    rfl
  | _ => trivial

theorem Op.Possible.keepsJobs {w : World} {op : Op} (h : op.Possible w) :
    w.store.KeepsJobs (op.apply w.store) :=
  Op.outbox_rule (I := fun s => w.store.KeepsJobs s) (fun _ _ hs he => hs.trans he.keeps)
    h.failsLive (.rfl' w.store)

theorem demoteInclusion_keepsJobs (s : Store) (a : Attempt) :
    s.KeepsJobs (demoteInclusion s a).2 := by
  rcases demoteInclusion_spec s a with h | ⟨-,h⟩
  · rw [h]
    exact .rfl' s
  · exact h.outbox.keeps

end Jobs

end GumEngine
