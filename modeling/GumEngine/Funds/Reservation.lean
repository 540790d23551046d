import GumEngine.Chain.Costs
import GumEngine.Funds.Ledger
import GumEngine.Pipeline.Driver

/-!
# Reservations of a driven nonce

The money side of `pipeline/tx.rs` for one nonce of a pair: every attempt is reserved for
when it is bound, all attempts of the nonce share one reservation, and the receipt of
whichever is mined is debited. Other tasks work on the same ledger in between, and the
learned L1 fee moves with every receipt of the chain.
-/

namespace GumEngine
open Relational Transition

/-- `estimate_encoded_len` -/
def estimateEncodedLen (dataLen : Nat) : Nat := 120+dataLen

/-- `observe_l1_fee`: a moving average that gives a new sample a quarter of the weight. -/
def CostContext.observeL1Fee (ctx : CostContext) (l1Fee encodedLen : Nat) : CostContext :=
  if encodedLen = 0 then ctx
  else
    let sample := l1Fee/encodedLen
    ⟨some (match ctx.l1FeePerByte with
      | some prev => (prev*3+sample)%2^256/4
      | none => sample)⟩

def Attempt.fees (a : Attempt) : FeeQuote := ⟨a.maxFeePerGas,a.maxPriorityFeePerGas⟩

/-- An attempt with the length and the context it was reserved with. -/
structure ReservedAttempt where
  attempt : Attempt
  encodedLen : Nat
  ctx : CostContext
deriving DecidableEq

def ReservedAttempt.shape (a : ReservedAttempt) : TxShape :=
  ⟨a.attempt.gasLimit,a.attempt.value,a.encodedLen⟩

/-- `TxDriver::worst_case` at the time of the reservation. -/
def ReservedAttempt.worstCase (kind : AdapterKind) (a : ReservedAttempt) : Nat :=
  kind.worstCaseCost a.shape a.attempt.fees a.ctx

/-- The fields of `InFlight` that reservations depend on. -/
structure Driving where
  owner : SlotOwner
  attempts : List ReservedAttempt
  worstCase : Nat
deriving DecidableEq

/-- The ledger of a pair, the chain's cost context, and the nonce while it is driven. -/
structure Purse where
  ledger : Ledger
  ctx : CostContext
  driving : Option Driving

inductive PurseEvent
  | execute (owner : SlotOwner) (dataLen : Nat) (g : Signature)
  | resume (attempts : List Attempt)
  | replace (g : Signature)
  | cancel (g : Signature)
  | settle (a : ReservedAttempt) (r : Receipt)
  | void
  | abandon
  | other (op : LedgerOp)
  | observeL1Fee (l1Fee encodedLen : Nat)

namespace Purse

variable (kind : AdapterKind) (quantity : String → Option Nat) (p : PairKey) (nonce : Nat)

/-- What `settle` debits: the fee, and the value unless the transaction reverted. -/
def debit (a : Attempt) (inc : Inclusion) : Nat :=
  Saturating.add 256 inc.feePaid (if inc.outcome = .success then a.value else 0)

def chain : ChainCtx := ⟨0,.immediate,kind.actualCost quantity⟩

def reserved (ctx : CostContext) (dataLen : Nat) (a : Attempt) : ReservedAttempt :=
  ⟨a,estimateEncodedLen dataLen,ctx⟩

/-- A new attempt joins the nonce: its cost can only raise the shared reservation. -/
def join (s : Purse) (f : Driving) (a : ReservedAttempt) : Purse :=
  let worstCase := max f.worstCase (a.worstCase kind)
  { s with
    ledger := s.ledger.reserve nonce worstCase
    driving := some { f with attempts := f.attempts++[a], worstCase := worstCase } }

/-- The end of `execute`, once the first attempt is bound. -/
def execute (s : Purse) (owner : SlotOwner) (dataLen : Nat) (g : Signature) : Purse :=
  let a := reserved s.ctx dataLen (sign p owner nonce owner.purpose g)
  { s with
    ledger := s.ledger.reserve nonce (a.worstCase kind)
    driving := some ⟨owner,[a],a.worstCase kind⟩ }

/-- The attempts are reserved for as they were stored. -/
def resume (s : Purse) (attempts : List Attempt) : Purse :=
  match attempts with
  | [] => s
  | first :: _ =>
    let as := attempts.map fun a => reserved s.ctx a.rawTx.length a
    let worstCase := (as.map (ReservedAttempt.worstCase kind)).foldr max 0
    { s with
      ledger := s.ledger.reserve nonce worstCase
      driving := some ⟨first.owner,as,worstCase⟩ }

/-- `replace_with_fresh_fees`, once the attempt is bound. -/
def replace (s : Purse) (f : Driving) (g : Signature) : Purse :=
  match f.attempts.find? fun a => a.attempt.purpose ≠ .cancel with
  | none => s
  | some o =>
    let a := sign p f.owner nonce o.attempt.purpose
      { g with gasLimit := o.attempt.gasLimit, value := o.attempt.value }
    s.join kind nonce f (reserved s.ctx g.rawTx.length a)

/-- `cancel`, once the attempt is bound. -/
def cancel (s : Purse) (f : Driving) (g : Signature) : Purse :=
  s.join kind nonce f
    (reserved s.ctx 0 (sign p f.owner nonce .cancel { g with value := 0 }))

/-- `on_receipt` and `settle` -/
def settle (s : Purse) (a : ReservedAttempt) (r : Receipt) : Purse :=
  match inclusionFrom (chain kind quantity) a.attempt r with
  | none => s
  | some inc =>
    { s with
      ledger := s.ledger.settle a.attempt.nonce (debit a.attempt inc) inc.blockNumber
      ctx := inc.l1Fee.elim s.ctx fun l1 => s.ctx.observeL1Fee l1 a.attempt.rawTx.length
      driving := none }

def step (s : Purse) : PurseEvent → Purse
  | .execute owner dataLen g => s.execute kind p nonce owner dataLen g
  | .resume attempts => s.resume kind nonce attempts
  | .replace g => match s.driving with
    | some f => s.replace kind p nonce f g
    | none => s
  | .cancel g => match s.driving with
    | some f => s.cancel kind p nonce f g
    | none => s
  | .settle a r => s.settle kind quantity a r
  | .void => { s with ledger := s.ledger.release nonce, driving := none }
  -- unresolved, handed to recovery or shut down: the reservation stands
  | .abandon => { s with driving := none }
  | .other op => { s with ledger := s.ledger.apply op }
  | .observeL1Fee l1Fee encodedLen => { s with ctx := s.ctx.observeL1Fee l1Fee encodedLen }

/-- The operation takes the reservation of the nonce away or sets it anew. -/
def drops : LedgerOp → Bool
  | .release n | .settle n _ _ | .unsettle n _ _ => n = nonce
  | _ => false

/-- A nonce is driven by one task at a time, from attempts that all carry it; nobody else
settles, releases or demotes it meanwhile. -/
def Allowed (s : Purse) : PurseEvent → Prop
  | .execute _ _ _ => s.driving = none
  | .resume attempts => s.driving = none ∧ ∀ a ∈ attempts, a.nonce = nonce
  | .settle a _ => ∃ f ∈ s.driving, a ∈ f.attempts
  | .other op => s.driving = none ∨ drops nonce op = false
  | _ => True

def machine : Machine Purse PurseEvent := ⟨Allowed nonce,step kind quantity p nonce⟩

/-- The nonce's reservation is sized for the dearest of its attempts. -/
structure Sized (s : Purse) (f : Driving) : Prop where
  nonces : ∀ a ∈ f.attempts, a.attempt.nonce = nonce
  dearest : ∀ a ∈ f.attempts, a.worstCase kind ≤ f.worstCase
  reserved : f.worstCase ≤ s.ledger.reservation nonce

def Sound (s : Purse) : Prop := ∀ f ∈ s.driving, Sized kind nonce s f

variable {kind quantity p nonce} {s : Purse}

theorem reservation_apply {op : LedgerOp} (h : drops nonce op = false) (l : Ledger) :
    l.reservation nonce ≤ (l.apply op).reservation nonce := by
  cases op with
  | initialise balance block => exact le_rfl
  | reserve n worstCase =>
    show _ ≤ (l.reserve n worstCase).reservation nonce
    rw [Ledger.reservation_reserve]
    split
    next hn => rw [hn]; exact le_max_left _ _
    next => exact le_rfl
  | release n =>
    have hn : nonce ≠ n := fun hn => by simp [drops,hn] at h
    exact (l.reservation_release_ne hn).ge
  | settle n spent block =>
    have hn : nonce ≠ n := fun hn => by simp [drops,hn] at h
    exact (l.reservation_release_ne hn).ge
  | unsettle n spent worstCase =>
    have hn : nonce ≠ n := fun hn => by simp [drops,hn] at h
    exact (l.reservation_unsettle_ne spent worstCase hn).ge
  | credit now amount block maturity =>
    unfold Ledger.apply Ledger.credit
    dsimp only
    split <;> exact le_rfl
  | mature now => exact le_rfl
  | reconcile ticket balance block =>
    unfold Ledger.apply Ledger.reconcile
    dsimp only
    split <;> exact le_rfl

/-- A sized nonce stays sized when its reservation does not shrink. -/
theorem Sized.of_le {f : Driving} {s' : Purse} (h : Sized kind nonce s f)
    (hle : s.ledger.reservation nonce ≤ s'.ledger.reservation nonce) : Sized kind nonce s' f :=
  ⟨h.nonces,h.dearest,h.reserved.trans hle⟩

theorem le_reservation_reserve (l : Ledger) (nonce worstCase : Nat) :
    worstCase ≤ (l.reserve nonce worstCase).reservation nonce := by
  rw [Ledger.reservation_reserve,if_pos rfl]
  exact le_max_right _ _

theorem Sized.join {f : Driving} (h : Sized kind nonce s f) {a : ReservedAttempt}
    (ha : a.attempt.nonce = nonce) : Sound kind nonce (s.join kind nonce f a) := by
  intro f' hf'
  obtain rfl := Option.some.inj hf'
  refine ⟨?_,?_,le_reservation_reserve _ _ _⟩
  · intro b hb
    obtain hb | hb := List.mem_append.1 hb
    · exact h.nonces b hb
    · obtain rfl := List.mem_singleton.1 hb
      exact ha
  · intro b hb
    obtain hb | hb := List.mem_append.1 hb
    · exact (h.dearest b hb).trans (le_max_left _ _)
    · obtain rfl := List.mem_singleton.1 hb
      exact le_max_right _ _

theorem le_foldr_max {xs : List Nat} {x : Nat} (h : x ∈ xs) : x ≤ xs.foldr max 0 := by
  induction xs with
  | nil => cases h
  | cons y ys ih =>
    obtain rfl | h := List.mem_cons.1 h
    · exact le_max_left _ _
    · exact (ih h).trans (le_max_right _ _)

theorem sound_resume {attempts : List Attempt} (hs : s.driving = none)
    (h : ∀ a ∈ attempts, a.nonce = nonce) : Sound kind nonce (s.resume kind nonce attempts) := by
  cases attempts with
  | nil =>
    intro f hf
    rw [resume,hs] at hf
    cases hf
  | cons first more =>
    intro f hf
    obtain rfl := Option.some.inj hf
    refine ⟨?_,fun a ha => le_foldr_max (List.mem_map_of_mem ha),le_reservation_reserve _ _ _⟩
    intro a ha
    obtain ⟨b,hb,rfl⟩ := List.mem_map.1 ha
    exact h b hb

theorem sound_of_idle (h : s.driving = none) : Sound kind nonce s := by
  intro f hf
  rw [h] at hf
  cases hf

theorem sound_step {e : PurseEvent} (hs : Sound kind nonce s) (he : s.Allowed nonce e) :
    Sound kind nonce (s.step kind quantity p nonce e) := by
  cases e with
  | execute owner dataLen g =>
    intro f hf
    obtain rfl := Option.some.inj hf
    refine ⟨?_,?_,le_reservation_reserve _ _ _⟩
    · intro a ha
      obtain rfl := List.mem_singleton.1 ha
      rfl
    · intro a ha
      obtain rfl := List.mem_singleton.1 ha
      exact le_rfl
  | resume attempts => exact sound_resume he.1 he.2
  | replace g =>
    unfold step
    dsimp only
    split
    next f hf =>
      unfold replace
      split
      · exact hs
      · exact (hs f hf).join rfl
    next => exact hs
  | cancel g =>
    unfold step
    dsimp only
    split
    next f hf => exact (hs f hf).join rfl
    next => exact hs
  | settle a r =>
    show Sound kind nonce (s.settle kind quantity a r)
    unfold settle
    split
    · exact hs
    · exact sound_of_idle rfl
  | void => exact sound_of_idle rfl
  | abandon => exact sound_of_idle rfl
  | other op =>
    intro f hf
    obtain hidle | hop := he
    · exact absurd hf (by simp [step,hidle])
    · exact (hs f hf).of_le (reservation_apply hop s.ledger)
  | observeL1Fee l1Fee encodedLen => exact fun f hf => (hs f hf).of_le le_rfl

theorem sound_of_reaches {s₀ : Purse} (h₀ : s₀.driving = none)
    (h : (machine kind quantity p nonce).Reaches s₀ s) : Sound kind nonce s :=
  h.invariant (I := Sound kind nonce) (sound_of_idle h₀) fun _ _ hs he => sound_step hs he

/-- The debit of a receipt that stays within its attempt is at most the attempt's worst case. -/
theorem debit_le_worstCase {a : ReservedAttempt} {r : Receipt} {inc : Inclusion}
    (hinc : inclusionFrom (chain kind quantity) a.attempt r = some inc)
    (hr : r.Within quantity kind a.shape a.attempt.fees a.ctx) :
    debit a.attempt inc ≤ a.worstCase kind := by
  have hfee : inc.feePaid = (kind.actualCost quantity a.attempt.gasLimit r).feePaid := by
    unfold inclusionFrom inclusionAt at hinc
    split at hinc
    · cases hinc
      rfl
    · cases hinc
  unfold debit
  rw [hfee]
  refine actualCost_le_worstCaseCost hr ?_
  split
  · exact le_rfl
  · exact Nat.zero_le _

end Purse

open Purse

/-- In every run of the driver on a nonce, whichever attempt is mined is debited at most what the
ledger holds reserved for the nonce; settling it never takes from the rest. -/
theorem reservation_covers_mined (kind : AdapterKind) (quantity : String → Option Nat)
    (p : PairKey) (nonce : Nat) (s₀ s : Purse) (h₀ : s₀.driving = none)
    (hreach : (Purse.machine kind quantity p nonce).Reaches s₀ s) :
    ∀ f ∈ s.driving, ∀ a ∈ f.attempts, ∀ r inc,
      inclusionFrom (chain kind quantity) a.attempt r = some inc →
      r.Within quantity kind a.shape a.attempt.fees a.ctx →
      debit a.attempt inc ≤ s.ledger.reservation nonce ∧
      (debit a.attempt inc ≤ s.ledger.confirmed → s.ledger.confirmed ≤ Saturating.top 256 →
        let l := (s.step kind quantity p nonce (.settle a r)).ledger
        (s.ledger.confirmed : Int)-s.ledger.reservedSum ≤ (l.confirmed : Int)-l.reservedSum ∧
          s.ledger.confirmed-s.ledger.reserved ≤ l.confirmed-l.reserved) := by
  intro f hf a ha r inc hinc hr
  have hsized := sound_of_reaches h₀ hreach f hf
  have hdebit : debit a.attempt inc ≤ s.ledger.reservation nonce :=
    (debit_le_worstCase hinc hr).trans ((hsized.dearest a ha).trans hsized.reserved)
  refine ⟨hdebit,fun hcover hword => ?_⟩
  have hl : (s.step kind quantity p nonce (.settle a r)).ledger =
      s.ledger.settle nonce (debit a.attempt inc) inc.blockNumber := by
    show (s.settle kind quantity a r).ledger = _
    unfold Purse.settle
    rw [hinc,hsized.nonces a ha]
  rw [hl]
  exact s.ledger.settle_room inc.blockNumber hdebit hcover hword

namespace Sample

/-- A transfer of 5 on the OP Stack, replaced once at a higher fee. -/
def replacedTransfer : List PurseEvent :=
  [.execute (.job 1) 0 ⟨1,71,[2],21000,10,1,5⟩,.replace ⟨2,72,[2,2],0,12,2,0⟩]

def purse : Purse := ⟨Ledger.empty.initialise 100000000000000 1,⟨some 1000⟩,none⟩

/-- Quantities of the sample receipt. -/
def sampleQuantity (text : String) : Option Nat := if text = "0x64" then some 100 else none

/-- The first attempt is mined all the same. -/
def transferReceipt : Receipt := ⟨71,some 9,some 4,some 1,21000,some 10,[("l1Fee","0x64")]⟩

end Sample

theorem reservation_covers_replaced_transfer :
    let s := Sample.replacedTransfer.foldl
      (Purse.machine .opstack Sample.sampleQuantity Sample.pair 0).step Sample.purse
    s.ledger.reservation 0 = 496005 ∧
      debit (sign Sample.pair (.job 1) 0 .job ⟨1,71,[2],21000,10,1,5⟩)
        ⟨71,9,4,.success,21000,10,210100,some 100,Sample.transferReceipt⟩ ≤
          s.ledger.reservation 0 := by
  intro s
  have hrun : (Purse.machine .opstack Sample.sampleQuantity Sample.pair 0).Runs Sample.purse
      Sample.replacedTransfer := ⟨rfl,trivial,trivial⟩
  refine ⟨by decide +kernel,?_⟩
  exact (reservation_covers_mined .opstack Sample.sampleQuantity Sample.pair 0 Sample.purse s rfl
    hrun.reaches _ rfl
    (Purse.reserved ⟨some 1000⟩ 0 (sign Sample.pair (.job 1) 0 .job ⟨1,71,[2],21000,10,1,5⟩))
    (List.mem_cons_self ..) Sample.transferReceipt _ rfl
    ⟨by decide,by decide,fun _ => by decide⟩).1

end GumEngine
