import GumEngine.Funds.Ledger

/-!
# Balance reads against the ledger

The callers of `begin_reconcile` and `reconcile`: the sweep of `funds/monitor.rs` with and
without Multicall3, `fund_and_retry` of the driver and the refresh in `treasury::fund`. A
backend answers a read from the state of any block up to the chain's head, and the cached
head of `ChainCtx` is the highest block seen so far.
-/

namespace GumEngine
open Relational Transition

/-- Who reads the balance. -/
inductive BalanceReader
  | sweepMulticall | sweepPlain | fundAndRetry | treasuryFund
deriving DecidableEq, Repr

/-- The answer of a backend: the balance, and the block whose state it was taken from. -/
structure BalanceAnswer where
  balance : Nat
  readAt : Nat
deriving DecidableEq, Repr

/-- A read under way, with the epoch of its ticket. -/
structure BalanceRead where
  reader : BalanceReader
  ticket : Nat
  answer : Option BalanceAnswer
deriving DecidableEq, Repr

/-- A balance that `reconcile` accepted, with the blocks the ledger reflected then. -/
structure AcceptedBalance where
  readAt : Nat
  reflected : List Nat
deriving DecidableEq, Repr

/-- One ledger, the chain's true head, the cached head and the reads under way; `reflected` are
the blocks of the receipts and credits applied so far. -/
structure Balances where
  tip : Nat
  head : Nat
  ledger : Ledger
  reads : Nat → Option BalanceRead
  reflected : List Nat
  accepted : List AcceptedBalance

inductive BalanceEvent
  | grow (n : Nat)
  | observeHead (n : Nat)
  | ledgerOp (op : LedgerOp)
  | beginRead (i : Nat) (reader : BalanceReader)
  | answer (i : Nat) (a : BalanceAnswer)
  | failed (i : Nat)
  | apply (i : Nat)
deriving DecidableEq, Repr

namespace Balances

variable (s : Balances)

def start (tip : Nat) : Balances := ⟨tip,0,Ledger.empty,fun _ => none,[],[]⟩

/-- The block a caller passes to `reconcile`: Multicall3 reports the block of the read, a plain
read passes the cached head. -/
def passed (reader : BalanceReader) (a : BalanceAnswer) : Nat :=
  match reader with
  | .sweepMulticall => a.readAt
  | .sweepPlain | .fundAndRetry | .treasuryFund => s.head

/-- The head after the answer has come in: the sweep with Multicall3 also observes its block. -/
def observed (reader : BalanceReader) (a : BalanceAnswer) : Nat :=
  match reader with
  | .sweepMulticall => max s.head a.readAt
  | _ => s.head

/-- The blocks an operation makes the ledger reflect. -/
def reflects : LedgerOp → List Nat
  | .settle _ _ block | .credit _ _ block _ => [block]
  | _ => []

def isReconcile : LedgerOp → Bool
  | .reconcile _ _ _ => true
  | _ => false

/-- The caller presents its ticket and the answer. -/
def applyRead (i : Nat) (r : BalanceRead) (a : BalanceAnswer) : Balances :=
  { s with
    head := s.observed r.reader a
    ledger := s.ledger.reconcile r.ticket a.balance (s.passed r.reader a)
    reads := Function.update s.reads i none
    accepted := if s.ledger.accepts r.ticket (s.passed r.reader a) then
      s.accepted++[⟨a.readAt,s.reflected⟩] else s.accepted }

def step : BalanceEvent → Balances
  | .grow n => { s with tip := s.tip+n }
  | .observeHead n => { s with head := max s.head n }
  | .ledgerOp op =>
    { s with ledger := s.ledger.apply op, reflected := s.reflected++reflects op }
  | .beginRead i reader =>
    { s with reads := Function.update s.reads i (some ⟨reader,s.ledger.beginReconcile,none⟩) }
  | .answer i a =>
    { s with
      reads := Function.update s.reads i
        ((s.reads i).map fun r => { r with answer := some a }) }
  | .failed i => { s with reads := Function.update s.reads i none }
  | .apply i =>
    match s.reads i with
    | some ⟨reader,ticket,some a⟩ => s.applyRead i ⟨reader,ticket,some a⟩ a
    | _ => s

/-- A `reconcile` goes through a caller; heads and answers are of blocks that exist. -/
def Allowed : BalanceEvent → Prop
  | .observeHead n => n ≤ s.tip
  | .ledgerOp op => isReconcile op = false ∧ ∀ b ∈ reflects op, b ≤ s.tip
  | .answer _ a => a.readAt ≤ s.tip
  | _ => True

instance : ∀ e, Decidable (s.Allowed e)
  | .observeHead _ => inferInstanceAs (Decidable (_ ≤ _))
  | .ledgerOp _ => inferInstanceAs (Decidable (_ ∧ _))
  | .answer _ _ => inferInstanceAs (Decidable (_ ≤ _))
  | .grow _ | .beginRead _ _ | .failed _ | .apply _ => inferInstanceAs (Decidable True)

def machine : Machine Balances BalanceEvent := ⟨Allowed,step⟩

instance (e : BalanceEvent) : Decidable (machine.allowed s e) :=
  inferInstanceAs (Decidable (s.Allowed e))

/-- A lagging node never overwrites fresher knowledge: whatever was accepted had been read at or
after every block the ledger reflected. -/
def NothingOverwritten : Prop := ∀ a ∈ s.accepted, ∀ b ∈ a.reflected, b ≤ a.readAt

/-- A plain read that the ledger accepts was answered by a backend that had reached the cached
head: the head is a lower bound of the block of the read. -/
def HeadIsLowerBound : BalanceEvent → Prop
  | .apply i => ∀ r a, s.reads i = some r → r.answer = some a → r.reader ≠ .sweepMulticall →
    s.ledger.accepts r.ticket s.head → s.head ≤ a.readAt
  | _ => True

/-- `as_of_block` is no older than any receipt or credit that the ledger reflects. -/
def AsOf : Prop := ∀ b ∈ s.reflected, b ≤ s.ledger.asOfBlock

variable {s}

theorem asOfBlock_apply (l : Ledger) (op : LedgerOp) : l.asOfBlock ≤ (l.apply op).asOfBlock := by
  cases op with
  | initialise balance block => exact le_max_left _ _
  | settle nonce spent block => exact le_max_left _ _
  | credit now amount block maturity =>
    unfold Ledger.apply Ledger.credit
    dsimp only
    split <;> exact le_max_left _ _
  | reconcile ticket balance block =>
    unfold Ledger.apply Ledger.reconcile
    dsimp only
    split
    next h => exact h.2
    next => exact le_rfl
  | reserve nonce worstCase => exact le_rfl
  | release nonce => exact le_rfl
  | unsettle nonce spent worstCase => exact le_rfl
  | mature now => exact le_rfl

theorem reflects_le_asOfBlock (l : Ledger) {op : LedgerOp} {b : Nat} (h : b ∈ reflects op) :
    b ≤ (l.apply op).asOfBlock := by
  cases op with
  | settle nonce spent block =>
    obtain rfl := List.mem_singleton.1 h
    exact le_max_right _ _
  | credit now amount block maturity =>
    obtain rfl := List.mem_singleton.1 h
    unfold Ledger.apply Ledger.credit
    dsimp only
    split <;> exact le_max_right _ _
  | _ => cases h

theorem asOf_step {e : BalanceEvent} (hs : s.AsOf) : (s.step e).AsOf := by
  cases e with
  | ledgerOp op =>
    intro b hb
    obtain hb | hb := List.mem_append.1 hb
    · exact (hs b hb).trans (asOfBlock_apply _ op)
    · exact reflects_le_asOfBlock _ hb
  | apply i =>
    unfold step
    dsimp only
    split
    next reader ticket a _ =>
      intro b hb
      exact (hs b hb).trans (asOfBlock_apply _ (.reconcile ticket a.balance _))
    next => exact hs
  | grow n => exact hs
  | observeHead n => exact hs
  | beginRead i reader => exact hs
  | answer i a => exact hs
  | failed i => exact hs

/-- Only an accepted balance changes what was overwritten. -/
theorem nothingOverwritten_step {e : BalanceEvent} (hs : s.AsOf) (h : s.NothingOverwritten)
    (hc : s.HeadIsLowerBound e) : (s.step e).NothingOverwritten := by
  cases e with
  | apply i =>
    unfold step
    dsimp only
    split
    next reader ticket a hr =>
      intro acc hacc
      unfold applyRead at hacc
      dsimp only at hacc
      split at hacc
      next haccepts =>
        obtain hacc | hacc := List.mem_append.1 hacc
        · exact h acc hacc
        · obtain rfl := List.mem_singleton.1 hacc
          intro b hb
          have hpassed : b ≤ s.passed reader a := (hs b hb).trans haccepts.2
          -- Multicall3 passes the block of the read, every other caller the cached head
          cases reader with
          | sweepMulticall => exact hpassed
          | sweepPlain => exact hpassed.trans (hc _ a hr rfl (by simp) haccepts)
          | fundAndRetry => exact hpassed.trans (hc _ a hr rfl (by simp) haccepts)
          | treasuryFund => exact hpassed.trans (hc _ a hr rfl (by simp) haccepts)
      next => exact h acc hacc
    next => exact h
  | grow n => exact h
  | observeHead n => exact h
  | ledgerOp op => exact h
  | beginRead i reader => exact h
  | answer i a => exact h
  | failed i => exact h

theorem asOf_of_reaches {tip : Nat} (h : machine.Reaches (start tip) s) : s.AsOf :=
  h.invariant (I := AsOf) (fun _ hb => absurd hb List.not_mem_nil) fun _ _ hs _ => asOf_step hs

end Balances

open Balances

/-- In every run whose accepted plain reads come from backends that had reached the cached head,
no balance overwrites fresher knowledge; and when the newest receipt is at the cached head,
nothing less will do. -/
theorem lagging_read_never_overwrites (tip : Nat) :
    (∀ s, (Balances.machine.restrict HeadIsLowerBound).Reaches (start tip) s →
      s.NothingOverwritten) ∧
    ∀ s i r a, Balances.machine.Reaches (start tip) s → s.NothingOverwritten →
      s.reads i = some r → r.answer = some a → r.reader ≠ .sweepMulticall →
      s.ledger.accepts r.ticket s.head → s.head ∈ s.reflected →
      ((s.step (.apply i)).NothingOverwritten ↔ s.head ≤ a.readAt) := by
  constructor
  · intro s h
    exact (h.invariant (I := fun s => s.AsOf ∧ s.NothingOverwritten)
      ⟨fun _ hb => absurd hb List.not_mem_nil,fun _ ha => absurd ha List.not_mem_nil⟩
      fun _ _ hs he => ⟨asOf_step hs.1,nothingOverwritten_step hs.1 hs.2 he.2⟩).2
  · intro s i r a hreach hs hr ha hplain hacc hhead
    constructor
    · intro h
      obtain ⟨reader,ticket,answer⟩ := r
      obtain rfl : answer = some a := ha
      have hpassed : s.passed reader a = s.head := by
        cases reader <;> first | rfl | exact absurd rfl hplain
      have hstep : s.step (.apply i) = s.applyRead i ⟨reader,ticket,some a⟩ a := by
        simp only [step,hr]
      rw [hstep] at h
      refine h ⟨a.readAt,s.reflected⟩ ?_ s.head hhead
      unfold applyRead
      dsimp only
      rw [hpassed,if_pos hacc]
      exact List.mem_append_right _ (List.mem_singleton_self _)
    · intro hle
      refine nothingOverwritten_step (asOf_of_reaches hreach) hs ?_
      intro r' a' hr' ha' _ _
      rw [hr] at hr'
      cases hr'
      rw [ha] at ha'
      cases ha'
      exact hle

/-- A payment is mined in block 12 and settled; `fund_and_retry` then reads the balance from a
backend that is still at block 10, and the ledger takes it for a read at block 12. -/
def staleRead : List BalanceEvent :=
  [.ledgerOp (.settle 0 40 12),.observeHead 12,.beginRead 0 .fundAndRetry,.answer 0 ⟨100,10⟩,
    .apply 0]

theorem stale_read_accepted :
    Balances.machine.Runs (start 12) staleRead ∧
      (staleRead.foldl Balances.machine.step (start 12)).accepted = [⟨10,[12]⟩] ∧
      ¬ (staleRead.foldl Balances.machine.step (start 12)).NothingOverwritten := by
  have hacc : (staleRead.foldl Balances.machine.step (start 12)).accepted = [⟨10,[12]⟩] := by
    decide +kernel
  refine ⟨by decide +kernel,hacc,fun h => ?_⟩
  have hle : 12 ≤ 10 := h ⟨10,[12]⟩ (by rw [hacc]; exact List.mem_singleton_self _) 12
    (List.mem_singleton_self _)
  omega

/-- The same with a backend that has reached block 12. -/
def freshRead : List BalanceEvent := staleRead.take 3 ++ [.answer 0 ⟨100,12⟩,.apply 0]

theorem lagging_read_never_overwrites_runs :
    (freshRead.foldl Balances.machine.step (start 12)).NothingOverwritten ∧
      ((((staleRead.take 4).foldl Balances.machine.step (start 12)).step
        (.apply 0)).NothingOverwritten ↔ 12 ≤ 10) := by
  constructor
  · have hruns : (Balances.machine.restrict HeadIsLowerBound).Runs (start 12) freshRead := by
      refine ⟨⟨by decide,trivial⟩,⟨by decide,trivial⟩,⟨trivial,trivial⟩,⟨by decide,trivial⟩,
        ⟨trivial,?_⟩,trivial⟩
      intro r a hr ha _ _
      obtain rfl := Option.some.inj hr
      obtain rfl := Option.some.inj ha
      decide
    exact (lagging_read_never_overwrites 12).1 _ hruns.reaches
  · have hruns : Balances.machine.Runs (start 12) (staleRead.take 4) := by decide
    exact (lagging_read_never_overwrites 12).2 _ 0 ⟨.fundAndRetry,1,some ⟨100,10⟩⟩ ⟨100,10⟩
      hruns.reaches (fun _ ha => by cases ha) rfl rfl (by decide) (by decide) (by decide)

end GumEngine
