import GumEngine.Numeric.Saturating
import GumEngine.Transition.Machine

/-!
# The base fee cache

`observe_block`, `observe_receipt_price` and `base_fee` of `chain/mod.rs`. Workers, the
confirmation verifier, recovery and the monitor observe blocks in any order; the cache keeps
the fee that came last and the time it came. Beside it stand the block that fee was learned
from and the highest block observed, which the code does not keep.
-/

namespace GumEngine
open Transition

/-- `FeeState`, with the block it was learned from. -/
structure FeeState where
  baseFee : Nat
  observed : Nat
  block : Nat
deriving DecidableEq, Repr

structure FeeCache where
  fees : Option FeeState
  now : Nat
  highest : Nat
deriving DecidableEq, Repr

/-- A block or one of our receipts is seen, or time passes. -/
inductive FeeEvent
  | observeBlock (number : Nat) (baseFeePerGas : Option Nat)
  | observeReceiptPrice (block effectiveGasPrice priorityFee : Nat)
  | tick (n : Nat)
deriving DecidableEq, Repr

namespace FeeCache

variable (ttl : Nat) (s : FeeCache)

def start : FeeCache := ⟨none,0,0⟩

def observeBaseFee (block baseFee : Nat) : FeeCache :=
  { s with fees := some ⟨baseFee,s.now,block⟩ }

def saw (block : Nat) : FeeCache := { s with highest := max s.highest block }

/-- A fee of more than 128 bits is read as the largest one. -/
def observeBlock (number : Nat) (baseFeePerGas : Option Nat) : FeeCache :=
  match baseFeePerGas with
  | some base => (s.saw number).observeBaseFee number (min base (Saturating.top 128))
  | none => s.saw number

/-- `effective = base + tip` for our own sends. -/
def observeReceiptPrice (block effectiveGasPrice priorityFee : Nat) : FeeCache :=
  if effectiveGasPrice > 0 then
    (s.saw block).observeBaseFee block (effectiveGasPrice-priorityFee)
  else s.saw block

/-- The cache answers `base_fee(false)`: its fee is not older than `fee_ttl_ms`. -/
def fresh (f : FeeState) : Bool := s.now-f.observed < ttl

/-- `fresh_base_fee` -/
def freshBaseFee : Option Nat := (s.fees.filter (s.fresh ttl)).map FeeState.baseFee

/-- `base_fee`; `latest` is the newest block as the node gives it, none when it fails. -/
def baseFee (forceRefresh : Bool) (latest : Option (Nat × Option Nat)) : Option Nat × FeeCache :=
  match (if forceRefresh then none else s.freshBaseFee ttl),latest with
  | some base,_ => (some base,s)
  | none,none => (none,s)
  | none,some (number,base) =>
    (some (base.elim 0 fun b => min b (Saturating.top 128)),s.observeBlock number base)

def step : FeeEvent → FeeCache
  | .observeBlock number baseFeePerGas => s.observeBlock number baseFeePerGas
  | .observeReceiptPrice block effectiveGasPrice priorityFee =>
    s.observeReceiptPrice block effectiveGasPrice priorityFee
  | .tick n => { s with now := s.now+n }

/-- Every order of observations. -/
def machine : Machine FeeCache FeeEvent := ⟨fun _ _ => True,step⟩

instance (e : FeeEvent) : Decidable (machine.allowed s e) := inferInstanceAs (Decidable True)

/-- When `base_fee(false)` answers from the cache, the answer was learned from the highest block
observed so far. -/
def UpToDate : Prop :=
  ∀ base ∈ s.freshBaseFee ttl, ∃ f ∈ s.fees, f.baseFee = base ∧ f.block = s.highest

/-- What an observation of `block` may be: one that brings a fee is not of an older block, and one
that brings none is not of a newer block while the cache still answers. -/
def Ordered (block : Nat) (brings : Bool) : Prop :=
  if brings then 0 < ttl → s.highest ≤ block
  else (s.freshBaseFee ttl).isSome → block ≤ s.highest

def InOrder : FeeEvent → Prop
  | .observeBlock number baseFeePerGas => s.Ordered ttl number baseFeePerGas.isSome
  | .observeReceiptPrice block effectiveGasPrice _ =>
    s.Ordered ttl block (decide (effectiveGasPrice > 0))
  | .tick _ => True

variable {ttl s}

theorem upToDate_iff :
    s.UpToDate ttl ↔ ∀ f ∈ s.fees, s.fresh ttl f = true → f.block = s.highest := by
  unfold UpToDate freshBaseFee
  cases s.fees with
  | none => simp
  | some f =>
    cases hf : s.fresh ttl f with
    | false => simp [hf]
    | true => simp [hf]

theorem isSome_freshBaseFee :
    (s.freshBaseFee ttl).isSome ↔ ∃ f ∈ s.fees, s.fresh ttl f = true := by
  unfold freshBaseFee
  cases s.fees with
  | none => simp
  | some f =>
    cases hf : s.fresh ttl f <;> simp [hf]

/-- A fee just learned is the one of the highest block exactly when its block is no older. -/
theorem upToDate_learned {block base : Nat} :
    ((s.saw block).observeBaseFee block base).UpToDate ttl ↔ s.Ordered ttl block true := by
  rw [upToDate_iff]
  show (∀ f ∈ some (FeeState.mk base s.now block),decide (s.now-f.observed < ttl) = true →
    f.block = max s.highest block) ↔ (0 < ttl → s.highest ≤ block)
  simp only [Option.mem_def,Option.some.injEq,forall_eq',decide_eq_true_eq,Nat.sub_self]
  constructor
  · intro h hpos
    have := h hpos
    omega
  · intro h hpos
    have := h hpos
    omega

/-- A block that says nothing about the fee must not be newer while the cache answers. -/
theorem upToDate_saw {block : Nat} (h : s.UpToDate ttl) :
    (s.saw block).UpToDate ttl ↔ s.Ordered ttl block false := by
  show _ ↔ ((s.freshBaseFee ttl).isSome → block ≤ s.highest)
  rw [upToDate_iff] at h ⊢
  rw [isSome_freshBaseFee]
  constructor
  · rintro h' ⟨f,hf,hfresh⟩
    have hblock : f.block = max s.highest block := h' f hf hfresh
    have := h f hf hfresh
    omega
  · intro hle f hf hfresh
    have hblock := h f hf hfresh
    have := hle ⟨f,hf,hfresh⟩
    show f.block = max s.highest block
    omega

theorem upToDate_step (s : FeeCache) (e : FeeEvent) (h : s.UpToDate ttl) :
    (s.step e).UpToDate ttl ↔ s.InOrder ttl e := by
  cases e with
  | observeBlock number baseFeePerGas =>
    cases baseFeePerGas with
    | none => exact upToDate_saw h
    | some base => exact upToDate_learned
  | observeReceiptPrice block effectiveGasPrice priorityFee =>
    show (s.observeReceiptPrice block effectiveGasPrice priorityFee).UpToDate ttl ↔
      s.Ordered ttl block (decide (effectiveGasPrice > 0))
    unfold observeReceiptPrice
    by_cases hp : effectiveGasPrice > 0
    · rw [if_pos hp,decide_eq_true hp]
      exact upToDate_learned
    · rw [if_neg hp,decide_eq_false hp]
      exact upToDate_saw h
  | tick n =>
    refine iff_of_true ?_ trivial
    rw [upToDate_iff] at h ⊢
    intro f hf hfresh
    refine h f hf ?_
    have hlt : s.now+n-f.observed < ttl := of_decide_eq_true hfresh
    exact decide_eq_true (by omega)

/-- Reading the fee from the cache changes nothing; any other read is an observation of the
newest block. -/
theorem baseFee_cases (s : FeeCache) (forceRefresh : Bool) (latest : Option (Nat × Option Nat)) :
    (s.baseFee ttl forceRefresh latest).2 = s ∨ ∃ number base,
      (s.baseFee ttl forceRefresh latest).2 = s.step (.observeBlock number base) := by
  unfold baseFee
  split
  · exact .inl rfl
  · exact .inl rfl
  · exact .inr ⟨_,_,rfl⟩

end FeeCache

open FeeCache

/-- The cache never goes back in time exactly when every observation comes in order. -/
theorem fee_cache_up_to_date_iff (ttl : Nat) (es : List FeeEvent) :
    (∀ n, ((es.take n).foldl FeeCache.machine.step FeeCache.start).UpToDate ttl) ↔
      (FeeCache.machine.restrict (InOrder ttl)).Runs FeeCache.start es := by
  have hruns : ∀ (es : List FeeEvent) (s : FeeCache), FeeCache.machine.Runs s es := by
    intro es
    induction es with
    | nil => exact fun _ => trivial
    | cons e es ih => exact fun s => ⟨trivial,ih _⟩
  have hstart : FeeCache.start.UpToDate ttl := fun _ h => nomatch h
  exact Machine.Runs.forall_take_iff (fun s e hs _ => upToDate_step s e hs) hstart
    (hruns es FeeCache.start)

/-- A worker sees block 100 at a base fee of 50; then the verifier fetches block 90, where it was
10, and the next quote is made from that. -/
def verifierFetch : List FeeEvent := [.observeBlock 100 (some 50),.observeBlock 90 (some 10)]

theorem fee_cache_goes_back :
    let s := verifierFetch.foldl FeeCache.machine.step FeeCache.start
    (s.baseFee 20000 false none).1 = some 10 ∧ s.highest = 100 ∧ ¬ s.UpToDate 20000 := by
  intro s
  refine ⟨by decide +kernel,by decide +kernel,?_⟩
  rw [upToDate_iff]
  intro h
  have hblock : 90 = 100 := h ⟨10,0,90⟩ (by decide +kernel) (by decide +kernel)
  omega

end GumEngine
