import GumEngine.Domain
import GumEngine.Numeric.Saturating
import GumEngine.Relational.Table
import GumEngine.Transition.Machine

/-!
# The balance ledger of a pair

`funds/ledger.rs`: the confirmed balance, one reservation for each nonce in flight and the
credits that are mined but not yet spendable. Every method is one lock section, so a run is
a sequence of operations. Amounts are naturals with the saturating operations of `U256`.
-/

namespace GumEngine
open Relational Transition

structure Reservation where
  nonce : Nat
  amount : Nat
deriving DecidableEq, Repr

/-- A credit and the time from which it can be spent. -/
structure MaturingCredit where
  due : Nat
  amount : Nat
deriving DecidableEq, Repr

structure Ledger where
  confirmed : Nat
  reservations : Keyed Reservation.nonce
  asOfBlock : Nat
  epoch : Nat
  initialised : Bool
  maturingCredits : List MaturingCredit

/-- `Ledger::default()` -/
def Ledger.empty : Ledger := ⟨0,⟨[],List.Pairwise.nil⟩,0,0,false,[]⟩

namespace Ledger

variable (l : Ledger)

/-- `Inner::reserved` -/
def reserved : Nat := Saturating.sum 256 (l.reservations.rows.map Reservation.amount)

def maturing : Nat := Saturating.sum 256 (l.maturingCredits.map MaturingCredit.amount)

def initialise (balance : Nat) (block : Nat) : Ledger :=
  { l with
    confirmed := balance
    asOfBlock := max l.asOfBlock block
    initialised := true
    epoch := l.epoch+1 }

def reserve (nonce : Nat) (worstCase : Nat) : Ledger :=
  { l with
    reservations := Keyed.upsert l.reservations ⟨nonce,max 0 worstCase⟩
      (fun r => { r with amount := max r.amount worstCase }) fun _ => rfl }

def release (nonce : Nat) : Ledger :=
  { l with reservations := l.reservations.delete fun r => r.nonce = nonce }

def settle (nonce : Nat) (spent : Nat) (block : Nat) : Ledger :=
  { l.release nonce with
    confirmed := l.confirmed-spent
    asOfBlock := max l.asOfBlock block
    epoch := l.epoch+1 }

def unsettle (nonce : Nat) (spent worstCase : Nat) : Ledger :=
  { l with
    confirmed := Saturating.add 256 l.confirmed spent
    reservations := Keyed.upsert l.reservations ⟨nonce,worstCase⟩
      (fun r => { r with amount := worstCase }) fun _ => rfl
    epoch := l.epoch+1 }

def credit (now : Nat) (amount : Nat) (block maturity : Nat) : Ledger :=
  let l' := { l with epoch := l.epoch+1, asOfBlock := max l.asOfBlock block }
  if maturity = 0 then { l' with confirmed := Saturating.add 256 l.confirmed amount }
  else { l' with maturingCredits := l.maturingCredits++[⟨now+maturity,amount⟩] }

/-- The credits that `mature` moves. -/
def matured (now : Nat) : List Nat :=
  (l.maturingCredits.filter fun c => c.due ≤ now).map MaturingCredit.amount

def mature (now : Nat) : Ledger :=
  { l with
    maturingCredits := l.maturingCredits.filter fun c => !(c.due ≤ now)
    confirmed := Saturating.add 256 l.confirmed (Saturating.sum 256 (l.matured now)) }

/-- The epoch a `ReconcileTicket` carries. -/
def beginReconcile : Nat := l.epoch

/-- The guard of `reconcile`. -/
def accepts (ticket block : Nat) : Prop := l.epoch = ticket ∧ l.asOfBlock ≤ block

instance (ticket block : Nat) : Decidable (l.accepts ticket block) :=
  inferInstanceAs (Decidable (_ ∧ _))

/-- The ledger after `reconcile`; it answers true exactly when it `accepts`. -/
def reconcile (ticket : Nat) (balance : Nat) (block : Nat) : Ledger :=
  if l.accepts ticket block then
    { l with confirmed := balance-l.maturing, asOfBlock := block, initialised := true }
  else l

end Ledger

/-- The lock sections that change a ledger. -/
inductive LedgerOp
  | initialise (balance : Nat) (block : Nat)
  | reserve (nonce : Nat) (worstCase : Nat)
  | release (nonce : Nat)
  | settle (nonce : Nat) (spent : Nat) (block : Nat)
  | unsettle (nonce : Nat) (spent worstCase : Nat)
  | credit (now : Nat) (amount : Nat) (block maturity : Nat)
  | mature (now : Nat)
  | reconcile (ticket : Nat) (balance : Nat) (block : Nat)
deriving DecidableEq, Repr

def Ledger.apply (l : Ledger) : LedgerOp → Ledger
  | .initialise balance block => l.initialise balance block
  | .reserve nonce worstCase => l.reserve nonce worstCase
  | .release nonce => l.release nonce
  | .settle nonce spent block => l.settle nonce spent block
  | .unsettle nonce spent worstCase => l.unsettle nonce spent worstCase
  | .credit now amount block maturity => l.credit now amount block maturity
  | .mature now => l.mature now
  | .reconcile ticket balance block => l.reconcile ticket balance block

section Reservations

variable (l : Ledger) {n m : Nat}

/-- What is reserved for a nonce, zero when it is not in flight. -/
def Ledger.reservation (n : Nat) : Nat :=
  ((l.reservations.rows.find? fun r => r.nonce = n).map Reservation.amount).getD 0

/-- What the reservations add up to. -/
def Ledger.reservedSum : Nat := (l.reservations.rows.map Reservation.amount).sum

theorem Ledger.reserved_eq : l.reserved = min l.reservedSum (Saturating.top 256) :=
  Saturating.sum_eq 256 _

theorem Ledger.reservation_reserve (n m worstCase : Nat) :
    (l.reserve n worstCase).reservation m =
      if m = n then max (l.reservation n) worstCase else l.reservation m := by
  unfold reservation reserve
  rw [Keyed.find_upsert]
  split
  next h =>
    subst h
    cases l.reservations.rows.find? fun r => r.nonce = m <;> simp
  next => rfl

theorem Ledger.reservation_release_ne (h : m ≠ n) :
    (l.release n).reservation m = l.reservation m := by
  unfold reservation release Table.delete
  rw [List.find?_filter]
  congr 3
  funext r
  by_cases hr : r.nonce = m
  · simp [hr,h]
  · simp [hr]

theorem Ledger.reservation_unsettle_ne (spent worstCase : Nat) (h : m ≠ n) :
    (l.unsettle n spent worstCase).reservation m = l.reservation m := by
  unfold reservation unsettle
  rw [Keyed.find_upsert,if_neg h]

/-- Releasing a nonce gives back exactly its reservation. -/
theorem Ledger.reservedSum_release (n : Nat) :
    (l.release n).reservedSum+l.reservation n = l.reservedSum := by
  have hunique := l.reservations.unique
  unfold reservedSum release reservation Table.delete
  dsimp only
  generalize l.reservations.rows = rows at hunique ⊢
  induction rows with
  | nil => rfl
  | cons r rs ih =>
    rw [List.pairwise_cons] at hunique
    by_cases hr : r.nonce = n
    · have hrest : rs.filter (fun x => !decide (x.nonce = n)) = rs := by
        rw [List.filter_eq_self]
        intro x hx
        have hne : ¬ x.nonce = n := fun h => hunique.1 x hx (hr.trans h.symm)
        simp [hne]
      simp [hr,hrest,Nat.add_comm]
    · have := ih hunique.2
      simp only [List.filter_cons,hr,decide_false,Bool.not_false,if_true,List.map_cons,
        List.sum_cons,List.find?_cons] at this ⊢
      omega

/-- Settling a nonce within its reservation leaves what is left for others as large as it was,
in exact and in saturating arithmetic. -/
theorem Ledger.settle_room {spent : Nat} (block : Nat) (hspent : spent ≤ l.reservation n)
    (hcover : spent ≤ l.confirmed) (hword : l.confirmed ≤ Saturating.top 256) :
    (l.confirmed : Int)-l.reservedSum ≤
        ((l.settle n spent block).confirmed : Int)-(l.settle n spent block).reservedSum ∧
      l.confirmed-l.reserved ≤
        (l.settle n spent block).confirmed-(l.settle n spent block).reserved := by
  have hsum := l.reservedSum_release n
  have hsettle : (l.settle n spent block).reservedSum = (l.release n).reservedSum := rfl
  have hconf : (l.settle n spent block).confirmed = l.confirmed-spent := rfl
  rw [Ledger.reserved_eq,Ledger.reserved_eq,hsettle,hconf]
  constructor <;> omega

end Reservations

section Maturing

variable (l : Ledger)

/-- What the maturing credits add up to. -/
def Ledger.maturingSum : Nat := (l.maturingCredits.map MaturingCredit.amount).sum

theorem Ledger.maturing_eq : l.maturing = min l.maturingSum (Saturating.top 256) :=
  Saturating.sum_eq 256 _

/-- The operation's amounts fit: no total leaves `U256`, nothing is debited that is not there,
and a balance read from the chain contains the credits that are still maturing. -/
def Ledger.Fits : LedgerOp → Prop
  | .initialise balance _ => l.maturingSum ≤ balance ∧ balance ≤ Saturating.top 256
  | .settle _ spent _ => spent ≤ l.confirmed
  | .unsettle _ amount _ | .credit _ amount _ _ =>
    l.confirmed+l.maturingSum+amount ≤ Saturating.top 256
  | .mature _ => l.confirmed+l.maturingSum ≤ Saturating.top 256
  | .reconcile ticket balance block => l.accepts ticket block →
    l.maturingSum ≤ balance ∧ balance ≤ Saturating.top 256
  | _ => True

instance : ∀ op, Decidable (l.Fits op)
  | .initialise _ _ => inferInstanceAs (Decidable (_ ∧ _))
  | .settle _ _ _ | .unsettle _ _ _ | .credit _ _ _ _ | .mature _ =>
    inferInstanceAs (Decidable (_ ≤ _))
  | .reconcile _ _ _ => inferInstanceAs (Decidable (_ → _ ∧ _))
  | .reserve _ _ | .release _ => inferInstanceAs (Decidable True)

/-- A ledger beside what it should add up to: the balance it was last set from, plus later
credits, minus later debits. -/
structure Book where
  ledger : Ledger
  balance : Int

def Book.empty : Book := ⟨Ledger.empty,0⟩

/-- The entry of an operation. -/
def Book.entry (s : Book) : LedgerOp → Int
  | .initialise balance _ => balance
  | .settle _ spent _ => s.balance-spent
  | .unsettle _ spent _ => s.balance+spent
  | .credit _ amount _ _ => s.balance+amount
  | .reconcile ticket balance block =>
    if s.ledger.accepts ticket block then balance else s.balance
  | _ => s.balance

/-- Every sequence of operations whose amounts fit. -/
def Book.machine : Machine Book LedgerOp where
  allowed s op := s.ledger.Fits op
  step s op := ⟨s.ledger.apply op,s.entry op⟩

instance (s : Book) (op : LedgerOp) : Decidable (Book.machine.allowed s op) :=
  inferInstanceAs (Decidable (s.ledger.Fits op))

/-- Every credit counts once: the confirmed and the maturing part add up to the book's balance,
so the confirmed part never exceeds it. -/
def Book.Counted (s : Book) : Prop :=
  (s.ledger.confirmed : Int)+s.ledger.maturing = s.balance ∧
    (s.ledger.confirmed : Int) ≤ s.balance

instance (s : Book) : Decidable s.Counted := inferInstanceAs (Decidable (_ ∧ _))

/-- The ledger is initialised only while nothing matures. -/
def Book.SetClear (s : Book) : LedgerOp → Prop
  | .initialise _ _ => s.ledger.maturing = 0
  | _ => True

theorem Ledger.maturingSum_mature (now : Nat) :
    (l.mature now).maturingSum+(l.matured now).sum = l.maturingSum := by
  unfold maturingSum mature matured
  induction l.maturingCredits with
  | nil => rfl
  | cons c cs ih =>
    dsimp only at ih ⊢
    by_cases hc : c.due ≤ now
    · simp only [List.filter_cons,hc,decide_true,Bool.not_true,if_true,Bool.false_eq_true,
        if_false,List.map_cons,List.sum_cons]
      omega
    · simp only [List.filter_cons,hc,decide_false,Bool.not_false,if_true,Bool.false_eq_true,
        if_false,List.map_cons,List.sum_cons]
      omega

/-- `mature` moves credits and neither makes nor loses any. -/
theorem Ledger.mature_total (now : Nat)
    (h : l.confirmed+l.maturingSum ≤ Saturating.top 256) :
    (l.mature now).confirmed+(l.mature now).maturing = l.confirmed+l.maturing := by
  have hsum := l.maturingSum_mature now
  have hc : (l.mature now).confirmed =
      Saturating.add 256 l.confirmed (Saturating.sum 256 (l.matured now)) := rfl
  rw [Saturating.sum_eq,Saturating.add] at hc
  rw [Ledger.maturing_eq,Ledger.maturing_eq]
  omega

theorem Ledger.credit_total (now block maturity : Nat) {amount : Nat}
    (h : l.confirmed+l.maturingSum+amount ≤ Saturating.top 256) :
    (l.credit now amount block maturity).confirmed+
      (l.credit now amount block maturity).maturing = l.confirmed+l.maturing+amount := by
  rw [Ledger.maturing_eq,Ledger.maturing_eq]
  unfold credit
  dsimp only
  split
  · show Saturating.add 256 l.confirmed amount+min l.maturingSum _ = _
    rw [Saturating.add]
    omega
  · show l.confirmed+min ((l.maturingCredits++[MaturingCredit.mk (now+maturity) amount]).map
      MaturingCredit.amount).sum _ = _
    rw [List.map_append,List.sum_append,List.map_singleton,List.sum_singleton]
    show l.confirmed+min (l.maturingSum+amount) _ = _
    omega

/-- One operation keeps the count, except for an `initialise` that finds credits maturing. -/
theorem Book.counted_step (s : Book) (op : LedgerOp) (hs : s.Counted)
    (h : Book.machine.allowed s op) : (Book.machine.step s op).Counted ↔ s.SetClear op := by
  have htotal := hs.1
  have hle : ∀ t : Book, (t.ledger.confirmed : Int)+t.ledger.maturing = t.balance → t.Counted :=
    fun t ht => ⟨ht,by omega⟩
  cases op with
  | initialise balance block =>
    show ((balance : Int)+s.ledger.maturing = balance ∧ (balance : Int) ≤ balance) ↔
      s.ledger.maturing = 0
    omega
  | reserve nonce worstCase => exact ⟨fun _ => trivial,fun _ => hs⟩
  | release nonce => exact ⟨fun _ => trivial,fun _ => hs⟩
  | settle nonce spent block =>
    refine ⟨fun _ => trivial,fun _ => hle _ ?_⟩
    have hfit : spent ≤ s.ledger.confirmed := h
    show ((s.ledger.confirmed-spent : Nat) : Int)+s.ledger.maturing = s.balance-spent
    omega
  | unsettle nonce spent worstCase =>
    refine ⟨fun _ => trivial,fun _ => hle _ ?_⟩
    have hfit : s.ledger.confirmed+s.ledger.maturingSum+spent ≤ Saturating.top 256 := h
    show ((Saturating.add 256 s.ledger.confirmed spent : Nat) : Int)+s.ledger.maturing =
      s.balance+spent
    rw [Saturating.add]
    omega
  | credit now amount block maturity =>
    refine ⟨fun _ => trivial,fun _ => hle _ ?_⟩
    have := s.ledger.credit_total now block maturity h
    show ((s.ledger.credit now amount block maturity).confirmed : Int)+
      (s.ledger.credit now amount block maturity).maturing = s.balance+amount
    omega
  | mature now =>
    refine ⟨fun _ => trivial,fun _ => hle _ ?_⟩
    have := s.ledger.mature_total now h
    show ((s.ledger.mature now).confirmed : Int)+(s.ledger.mature now).maturing = s.balance
    omega
  | reconcile ticket balance block =>
    refine ⟨fun _ => trivial,fun _ => hle _ ?_⟩
    show ((s.ledger.reconcile ticket balance block).confirmed : Int)+
      (s.ledger.reconcile ticket balance block).maturing =
        if s.ledger.accepts ticket block then (balance : Int) else s.balance
    by_cases hacc : s.ledger.accepts ticket block
    · rw [Ledger.reconcile,if_pos hacc,if_pos hacc]
      have hfit : s.ledger.maturingSum ≤ balance := (h hacc).1
      have hm := s.ledger.maturing_eq
      show ((balance-s.ledger.maturing : Nat) : Int)+s.ledger.maturing = balance
      omega
    · rw [Ledger.reconcile,if_neg hacc,if_neg hacc]
      exact htotal

/-- Maturing credits are counted once throughout a run exactly when the run initialises the
ledger only while nothing matures; `mature` keeps the total of every ledger. -/
theorem credits_counted_once_iff (l : Ledger) (now : Nat) (ops : List LedgerOp) :
    (l.confirmed+l.maturingSum ≤ Saturating.top 256 →
      (l.mature now).confirmed+(l.mature now).maturing = l.confirmed+l.maturing) ∧
    (Book.machine.Runs Book.empty ops →
      ((∀ n, ((ops.take n).foldl Book.machine.step Book.empty).Counted) ↔
        (Book.machine.restrict Book.SetClear).Runs Book.empty ops)) := by
  constructor
  · exact l.mature_total now
  · intro h
    exact Machine.Runs.forall_take_iff Book.counted_step ⟨rfl,le_rfl⟩ h

/-- A top-up of 100 is mined and matures; recovery initialises the ledger from the balance that
contains it, and both are confirmed in the end. -/
def initialiseWhileMaturing : List LedgerOp :=
  [.credit 0 100 7 1200,.initialise 100 8,.mature 1200]

theorem maturing_credit_counted_twice :
    Book.machine.Runs Book.empty initialiseWhileMaturing ∧
      ¬ (initialiseWhileMaturing.foldl Book.machine.step Book.empty).Counted ∧
      (initialiseWhileMaturing.foldl Book.machine.step Book.empty).balance = 100 ∧
      (initialiseWhileMaturing.foldl Book.machine.step Book.empty).ledger.confirmed = 200 := by
  decide +kernel

/-- A credit that comes after the ledger was set from the chain. -/
def initialiseFirst : List LedgerOp := [.initialise 100 8,.credit 0 100 9 1200,.mature 1200]

/-- The ledger with the credit still maturing. -/
def creditMaturing : Ledger :=
  ((initialiseFirst.take 2).foldl Book.machine.step Book.empty).ledger

theorem credits_counted_once_iff_clear :
    (creditMaturing.mature 1200).confirmed+(creditMaturing.mature 1200).maturing =
        creditMaturing.confirmed+creditMaturing.maturing ∧
      ∀ n, ((initialiseFirst.take n).foldl Book.machine.step Book.empty).Counted :=
  ⟨(credits_counted_once_iff creditMaturing 1200 []).1 (by decide +kernel),
    ((credits_counted_once_iff Ledger.empty 0 initialiseFirst).2 (by decide +kernel)).2
      ⟨⟨by decide +kernel,rfl⟩,⟨by decide +kernel,trivial⟩,⟨by decide +kernel,trivial⟩,trivial⟩⟩

end Maturing

end GumEngine
