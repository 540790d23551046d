import GumEngine.Chain.Fees
import GumEngine.Funds.Ledger
import GumEngine.Funds.Treasury

/-!
# The size of a top-up

`spendable_for`, `request_topup` and the amount that `treasury::fund` computes, over the
ledger of the signer to be funded. The shortfall is taken from a balance that a protocol
reserve and the reservations have already been subtracted from.
-/

namespace GumEngine
open Relational

/-- 10 MON -/
def reserveWei : Nat := 10000000000000000000

/-- The part of a confirmed balance that a transaction transferring `value` may draw on. -/
def AdapterKind.spendable (kind : AdapterKind) (confirmed value : Nat) : Nat :=
  match kind with
  | monad => if value = 0 then confirmed else confirmed-reserveWei
  | geth | opstack | arc | arbitrum => confirmed

def AdapterKind.creditMaturityBlocks : AdapterKind → Nat
  | monad => 4
  | geth | opstack | arc | arbitrum => 0

/-- `spendable_for`, at time `now` -/
def Ledger.spendableFor (l : Ledger) (kind : AdapterKind) (now value : Nat) : Nat :=
  kind.spendable (l.mature now).confirmed value-(l.mature now).reserved

/-- What `fund` takes the signer to have: what is spendable and what is still maturing. -/
def Ledger.covered (l : Ledger) (kind : AdapterKind) (now value : Nat) : Nat :=
  Saturating.add 256 (l.spendableFor kind now value) (l.mature now).maturing

/-- `treasury::fund` for the signer whose ledger is `target`. -/
def fundTarget (store : StoreError → String) (signer : SignerError → String)
    (cfg : TreasuryConfig) (kind : AdapterKind) (target : Ledger) (now : Nat)
    (request : TopupRequest) (r : FundReads) : Funded :=
  fund store signer cfg request { r with covered := target.covered kind now request.value }

/-- The routine amount: a signer's first funding may be larger. -/
def FundReads.base (cfg : TreasuryConfig) (r : FundReads) : Nat :=
  match r.everToppedUp with
  | .ok true => cfg.topupAmount
  | _ => cfg.initialTopupAmount

/-- The target's ledger once `fund` has credited a mined transfer. -/
def Ledger.funded (l : Ledger) (kind : AdapterKind) (blockTimeMs now creditedAt amount block : Nat) :
    Ledger :=
  (l.mature now).credit creditedAt amount block (kind.creditMaturityBlocks*blockTimeMs)

/-- What `request_topup` asks the treasury for. -/
def topupTarget (needed signerMinBalance : Nat) : Nat := Saturating.add 256 needed signerMinBalance

/-- The last check of `request_topup`, after the treasury has answered with success. -/
def requestTopup (l : Ledger) (kind : AdapterKind) (now needed value : Nat) : Except String Unit :=
  if needed ≤ l.spendableFor kind now value then .ok ()
  else .error "top-up arrived but the signer still cannot cover the transaction"

/-- The reserve that a transaction transferring `value` may not touch. -/
def AdapterKind.withheld (kind : AdapterKind) (value : Nat) : Nat :=
  if kind = .monad ∧ value ≠ 0 then reserveWei else 0

/-- What the signer's balance has to carry besides the transaction. -/
def Ledger.held (l : Ledger) (kind : AdapterKind) (value : Nat) : Nat :=
  kind.withheld value+l.reserved

/-- The amount makes up for all that is held: the balance covers it already, or the routine
amount is large enough anyway. -/
def Ledger.Reachable (l : Ledger) (kind : AdapterKind) (value needed base : Nat) : Prop :=
  needed+l.held kind value ≤ Saturating.top 256 ∧
    (l.held kind value ≤ l.confirmed ∨
      needed+l.held kind value ≤ l.confirmed+l.maturingSum+base)

theorem AdapterKind.spendable_eq (kind : AdapterKind) (confirmed value : Nat) :
    kind.spendable confirmed value = confirmed-kind.withheld value := by
  unfold spendable withheld
  cases kind with
  | monad => by_cases h : value = 0 <;> simp [h]
  | geth => simp
  | opstack => simp
  | arc => simp
  | arbitrum => simp

theorem fundOutcome_credit {store : StoreError → String} {signer : SignerError → String}
    {amount amount' block : Nat} {topupId : Uuid} {outcome : Driven}
    (h : (fundOutcome store signer amount topupId outcome).credit = some (amount',block)) :
    amount' = amount := by
  cases outcome with
  | mined a inclusion =>
    unfold fundOutcome at h
    dsimp only at h
    split at h
    · cases h
      rfl
    · cases h
  | notBound why => cases h
  | voided requeued reason => cases h
  | unresolved => cases h
  | needsRecovery => cases h
  | aborted => cases h

/-- A credit that went out was sized by the shortfall. -/
theorem fund_credit {store : StoreError → String} {signer : SignerError → String}
    {cfg : TreasuryConfig} {request : TopupRequest} {r : FundReads} {amount block : Nat}
    (h : (fund store signer cfg request r).credit = some (amount,block)) :
    r.covered < request.needed ∧ amount = max (r.base cfg) (request.needed-r.covered) := by
  obtain ⟨paused,known,covered,ever,recent,quote,gas,created,affordable,outcome⟩ := r
  cases paused with
  | some reason => cases h
  | none =>
    cases known with
    | false => cases h
    | true =>
      by_cases hcov : covered ≥ request.needed
      · simp only [fund,Bool.not_true,Bool.false_eq_true,if_false,if_pos hcov] at h
        cases h
      · refine ⟨lt_of_not_ge hcov,?_⟩
        cases ever with
        | error e => simp [fund,hcov,Funded.refused] at h
        | ok ever =>
          simp only [fund,Bool.not_true,Bool.false_eq_true,if_false,if_neg hcov] at h
          -- every later exit but the driver's refuses, and the amount is fixed by now
          split at h
          · cases h
          · split at h
            · cases h
            · split at h
              · cases h
              · cases h
              · cases h
              · split at h
                · cases h
                · rw [fundOutcome_credit h,FundReads.base]
                  cases ever <;> rfl

section Amount

variable (l : Ledger) {kind : AdapterKind} {value needed base : Nat}

@[simp] theorem Ledger.mature_reserved (now : Nat) : (l.mature now).reserved = l.reserved := rfl

theorem Ledger.credit_reserved (now amount block maturity : Nat) :
    (l.credit now amount block maturity).reserved = l.reserved := by
  unfold credit
  dsimp only
  split <;> rfl

/-- Once everything has matured, all of it is confirmed, up to the largest word. -/
theorem Ledger.mature_all {now : Nat} (h : ∀ c ∈ l.maturingCredits, c.due ≤ now) :
    (l.mature now).confirmed = min (l.confirmed+l.maturingSum) (Saturating.top 256) := by
  have hm : l.matured now = l.maturingCredits.map MaturingCredit.amount := by
    rw [matured,List.filter_eq_self.2 fun c hc => decide_eq_true (h c hc)]
  have hc : (l.mature now).confirmed =
      Saturating.add 256 l.confirmed (Saturating.sum 256 (l.matured now)) := rfl
  rw [hc,hm,Saturating.sum_eq,Saturating.add]
  show min (l.confirmed+min l.maturingSum _) _ = _
  omega

theorem Ledger.credit_sum (now amount block maturity : Nat) :
    min ((l.credit now amount block maturity).confirmed+
      (l.credit now amount block maturity).maturingSum) (Saturating.top 256) =
        min (l.confirmed+l.maturingSum+amount) (Saturating.top 256) := by
  unfold credit
  dsimp only
  split
  · show min (Saturating.add 256 l.confirmed amount+l.maturingSum) _ = _
    rw [Saturating.add]
    omega
  · show min (l.confirmed+((l.maturingCredits++[MaturingCredit.mk (now+maturity) amount]).map
      MaturingCredit.amount).sum) _ = _
    rw [List.map_append,List.sum_append,List.map_singleton,List.sum_singleton]
    show min (l.confirmed+(l.maturingSum+amount)) _ = _
    omega

/-- The shortfall is exact as long as the balance carries what is held; below that the deficit
is invisible and only the routine amount can make up for it. -/
theorem shortfall_arith {top confirmed maturing held amount : Nat} (hneeded : needed ≤ top)
    (hcov : min (confirmed-held+min maturing top) top < needed)
    (hamount : amount = max base (needed-min (confirmed-held+min maturing top) top)) :
    needed ≤ min (confirmed+maturing+amount) top-held ↔
      needed+held ≤ top ∧ (held ≤ confirmed ∨ needed+held ≤ confirmed+maturing+base) := by
  have hpos : 0 < needed := by omega
  by_cases hheld : held ≤ confirmed
  · constructor
    · intro h
      exact ⟨by omega,.inl hheld⟩
    · rintro ⟨htop,-⟩
      omega
  · constructor
    · intro h
      exact ⟨by omega,.inr (by omega)⟩
    · rintro ⟨htop,hheld' | hbase⟩
      · exact absurd hheld' hheld
      · omega

/-- What a funded signer can spend once everything has matured. -/
theorem Ledger.funded_spendableFor {blockTimeMs now creditedAt amount block later : Nat}
    (h : ∀ c ∈ (l.funded kind blockTimeMs now creditedAt amount block).maturingCredits,
      c.due ≤ later) :
    (l.funded kind blockTimeMs now creditedAt amount block).spendableFor kind later value =
      min ((l.mature now).confirmed+(l.mature now).maturingSum+amount) (Saturating.top 256)-
        (l.mature now).held kind value := by
  rw [spendableFor,AdapterKind.spendable_eq,Ledger.mature_all _ h,Ledger.mature_reserved,funded,
    Ledger.credit_sum,Ledger.credit_reserved,held,Nat.sub_sub]

theorem Ledger.covered_eq (now : Nat) :
    l.covered kind now value =
      min ((l.mature now).confirmed-(l.mature now).held kind value+
        min (l.mature now).maturingSum (Saturating.top 256)) (Saturating.top 256) := by
  rw [covered,spendableFor,AdapterKind.spendable_eq,Nat.sub_sub,Ledger.maturing_eq]
  rfl

end Amount

/-- A top-up of the computed amount is enough exactly when the balance already carries what is
held back, or the routine amount covers the difference; `request_topup` then succeeds. -/
theorem topup_suffices_iff (store : StoreError → String) (signer : SignerError → String)
    (cfg : TreasuryConfig) (kind : AdapterKind) (target : Ledger) (request : TopupRequest)
    (r : FundReads) (blockTimeMs now creditedAt later amount block : Nat)
    (hneeded : request.needed ≤ Saturating.top 256)
    (hsent : (fundTarget store signer cfg kind target now request r).credit = some (amount,block))
    (hlater : ∀ c ∈ (target.funded kind blockTimeMs now creditedAt amount block).maturingCredits,
      c.due ≤ later) :
    (request.needed ≤ (target.funded kind blockTimeMs now creditedAt amount block).spendableFor
        kind later request.value ↔
      (target.mature now).Reachable kind request.value request.needed (r.base cfg)) ∧
    ∀ needed signerMinBalance, needed ≤ Saturating.top 256 →
      request.needed = topupTarget needed signerMinBalance →
      (target.mature now).Reachable kind request.value request.needed (r.base cfg) →
      requestTopup (target.funded kind blockTimeMs now creditedAt amount block) kind later needed
        request.value = .ok () := by
  obtain ⟨hcov,hamount⟩ := fund_credit hsent
  have hiff : request.needed ≤ (target.funded kind blockTimeMs now creditedAt amount
      block).spendableFor kind later request.value ↔
        (target.mature now).Reachable kind request.value request.needed (r.base cfg) := by
    rw [Ledger.funded_spendableFor target hlater,Ledger.Reachable]
    change target.covered kind now request.value < request.needed at hcov
    change amount = max (r.base cfg) (request.needed-target.covered kind now request.value)
      at hamount
    rw [Ledger.covered_eq] at hcov hamount
    obtain ⟨_,needed,value⟩ := request
    exact shortfall_arith hneeded hcov hamount
  refine ⟨hiff,fun needed signerMinBalance hn htarget hreach => if_pos ?_⟩
  refine le_trans ?_ (hiff.2 hreach)
  rw [htarget,topupTarget,Saturating.add]
  exact le_min (Nat.le_add_right _ _) hn

/-- A successful transfer from the treasury, mined in block 20. -/
def minedTransfer : Driven :=
  .mined ⟨1,1,9,0,.topup,.topup 1,77,[],21000,1,1,100,.broadcast,none,none⟩
    ⟨77,20,5,.success,21000,1,21000,none,⟨77,some 20,some 5,some 1,21000,some 1,[]⟩⟩

/-- Reads of a `fund` that goes through for a signer that was funded before. -/
def routineReads : FundReads :=
  ⟨none,true,0,.ok true,.ok 0,.ok (),.ok 21000,.ok 1,true,minedTransfer⟩

def routineConfig : TreasuryConfig := ⟨5,5,6⟩

/-- A signer with 10 confirmed whose transactions in flight reserve 50. -/
def overReserved : Ledger := (Ledger.empty.initialise 10 1).reserve 0 50

/-- A signer with 60 confirmed and the same reservation. -/
def wellReserved : Ledger := (Ledger.empty.initialise 60 1).reserve 0 50

/-- The signer needs 100 and is sent 100, but 40 of it go to what it had already promised. -/
theorem topup_too_small :
    (fundTarget (fun _ => "") (fun _ => "") routineConfig .geth overReserved 0 ⟨7,100,0⟩
      routineReads).credit = some (100,20) ∧
    (overReserved.funded .geth 2000 0 0 100 20).maturingCredits = [] ∧
    (overReserved.funded .geth 2000 0 0 100 20).spendableFor .geth 0 0 = 60 ∧
    requestTopup (overReserved.funded .geth 2000 0 0 100 20) .geth 0 100 0 =
      .error "top-up arrived but the signer still cannot cover the transaction" := by
  refine ⟨by decide +kernel,by decide +kernel,by decide +kernel,?_⟩
  exact if_neg (by decide +kernel)

theorem topup_suffices_well_reserved :
    requestTopup (wellReserved.funded .geth 2000 0 0 90 20) .geth 0 100 0 = .ok () :=
  (topup_suffices_iff (fun _ => "") (fun _ => "") routineConfig .geth wellReserved ⟨7,100,0⟩
    routineReads 2000 0 0 0 90 20 (by decide +kernel) (by decide +kernel)
    (by decide +kernel)).2 100 0 (by decide +kernel) (by decide +kernel)
    ⟨by decide +kernel,by decide +kernel⟩

end GumEngine
