import GumEngine.Funds.Shortfall
import GumEngine.Pipeline.Driver

/-!
# The stuck ladder with its fees

One call of `TxDriver::escalate` whose reads, signature and bind all succeed, with the fee
quotes of the chain's kind filled in. A nonce that stays stuck is escalated again and again;
what a call has to use up is a step of the ladder or one of its bumps.
-/

namespace GumEngine

def AdapterKind.stuckLadder : AdapterKind → List StuckStep
  | geth | opstack | arc => [.rebroadcast,.diagnose,.bump,.noop]
  | monad => [.diagnose,.rebroadcast,.bump,.noop]
  | arbitrum => [.rebroadcast,.diagnose]

def AdapterKind.trustStatelessRejects : AdapterKind → Bool
  | geth | opstack | arc | arbitrum => true
  | monad => false

/-- What the driver reads off the kind and the tunable `max_bumps`. -/
def AdapterKind.chainKind (kind : AdapterKind) (maxBumps : Nat) : ChainKind :=
  ⟨kind.stuckLadder,kind.trustStatelessRejects,maxBumps⟩

def lastQuote (f : InFlight) : FeeQuote := ⟨f.last.maxFeePerGas,f.last.maxPriorityFeePerGas⟩

/-- The quote of `replace_with_fresh_fees`. Without a pool there is nothing to out-bid, and a
fresh quote will do if it is higher. -/
def AdapterKind.bumpQuote (kind : AdapterKind) (t : FeeTunables) (prev : FeeQuote) (base : Nat) :
    Option FeeQuote :=
  if kind.hasReplacement then kind.replacement prev base t.maxFeeCapWei t
  else (some (feeQuote base t)).filter fun q => q.maxFeePerGas > prev.maxFeePerGas

/-- What the reads of one call answer, with `worst_case` and `intent.value` of the nonce. The
base fee is read once by the step and once more for the quote. -/
structure StuckReads where
  chainNonce : Nat
  found : Option B256
  balance : Nat
  worstCase : Nat
  value : Nat
  baseFee : Nat
  quoteBaseFee : Nat
  signature : Signature

/-- How the call ends for `resolve`. -/
inductive Next
  | poll | rebroadcast
  | mined | unresolved | needsRecovery
deriving DecidableEq

/-- `Next::Done(_)` -/
def Next.isDone : Next → Bool
  | mined | unresolved | needsRecovery => true
  | poll | rebroadcast => false

namespace InFlight

variable (kind : AdapterKind) (t : FeeTunables) (maxBumps : Nat)
  (decodeTarget : Attempt → Option (Address × Bytes)) (p : PairKey) (f : InFlight)

/-- `base + tip > max_fee` -/
def underpriced (base : Nat) : Bool :=
  Saturating.add 128 base f.last.maxPriorityFeePerGas > f.last.maxFeePerGas

def diagnosis (r : StuckReads) : Diagnosis :=
  ⟨some r.chainNonce,kind.spendable r.balance r.value < r.worstCase,f.underpriced r.baseFee⟩

/-- The signature of a replacement: there is one when the fees can be raised and the original
can be read back. -/
def replacementSignature (r : StuckReads) : Option Signature :=
  (kind.bumpQuote t (lastQuote f) r.quoteBaseFee).bind fun q =>
    (f.original.bind decodeTarget).map fun _ => { r.signature with
      maxFeePerGas := q.maxFeePerGas
      maxPriorityFeePerGas := q.maxPriorityFeePerGas }

def cancelSignature (r : StuckReads) : Option Signature :=
  (kind.replacement (lastQuote f) r.quoteBaseFee t.cancelFeeCapWei t).map fun q => { r.signature with
    maxFeePerGas := q.maxFeePerGas
    maxPriorityFeePerGas := q.maxPriorityFeePerGas }

/-- The nonce once a bind has succeeded, unchanged where nothing was bound. -/
def afterBind : Activity → InFlight × Next
  | .binding goal a _ => (goal.bound a,.rebroadcast)
  | _ => (f,.poll)

/-- `replace_with_fresh_fees` -/
def replaceCall (r : StuckReads) : InFlight × Next :=
  f.afterBind (f.replaceWithFreshFees (kind.chainKind maxBumps) p
    (f.replacementSignature kind t decodeTarget r))

/-- `cancel` -/
def cancelCall (r : StuckReads) : InFlight × Next :=
  f.afterBind (f.cancel p (f.cancelSignature kind t r))

/-- What becomes of the call once the step is chosen. -/
def follow (r : StuckReads) : Activity → InFlight × Next
  | .sending f' => (f',.rebroadcast)
  | .polling f' => (f',.poll)
  -- the nonce is taken: by one of the attempts, or an operator has to look
  | .lookingBack f' _ _ => (f',if r.found.isSome then .mined else .unresolved)
  | .replacing f' => f'.replaceCall kind t maxBumps decodeTarget p r
  | .cancelling f' => f'.cancelCall kind t p r
  | _ => (f,.needsRecovery)

/-- One call of `escalate`. -/
def escalateCall (r : StuckReads) : InFlight × Next :=
  if kind.stuckLadder.length ≤ f.ladderPos then (f,.unresolved)
  else f.follow kind t maxBumps decodeTarget p r
    (f.escalate (kind.chainKind maxBumps) (f.diagnosis kind r))

/-- Ladder steps left and fee bumps left. -/
def left : Nat × Nat := (kind.stuckLadder.length-f.ladderPos,maxBumps-f.bumps)

/-- The call ends with `Done` or uses something up. -/
def Progresses (r : StuckReads) : Prop :=
  let next := f.escalateCall kind t maxBumps decodeTarget p r
  next.2.isDone = true ∨
    Prod.Lex (· < ·) (· < ·) (next.1.left kind maxBumps) (f.left kind maxBumps)

/-- The nonce is caught on its bump: the fee is the problem, bumps are left, and yet there is no
replacement to be had, be it that the cap leaves no room for one or that the original cannot be
read back. -/
def Caught (r : StuckReads) : Prop :=
  kind.stuckLadder[f.ladderPos]? = some .bump ∧ f.underpriced r.baseFee = true ∧
    f.bumps < maxBumps ∧
    (kind.bumpQuote t (lastQuote f) r.quoteBaseFee = none ∨ f.original.bind decodeTarget = none)

instance (r : StuckReads) : Decidable (f.Caught kind t maxBumps decodeTarget r) :=
  inferInstanceAs (Decidable (_ ∧ _ ∧ _ ∧ (_ ∨ _)))

variable {kind t maxBumps decodeTarget p f} {r : StuckReads}

theorem lt_of_step {step : StuckStep} (h : kind.stuckLadder[f.ladderPos]? = some step) :
    f.ladderPos < kind.stuckLadder.length := (List.getElem?_eq_some_iff.1 h).1

/-- A step that moves down the ladder progresses, whatever it does to the bumps. -/
theorem progresses_of_down (hlt : f.ladderPos < kind.stuckLadder.length)
    (h : (f.escalateCall kind t maxBumps decodeTarget p r).1.ladderPos = f.ladderPos+1) :
    f.Progresses kind t maxBumps decodeTarget p r := by
  refine .inr (.left _ _ ?_)
  show _-_ < _-_
  rw [h]
  omega

theorem afterBind_cancel_ladderPos (f : InFlight) (p : PairKey) (signed : Option Signature) :
    (f.afterBind (f.cancel p signed)).1.ladderPos = f.ladderPos := by
  cases signed <;> rfl

theorem replacementSignature_eq_none :
    f.replacementSignature kind t decodeTarget r = none ↔
      kind.bumpQuote t (lastQuote f) r.quoteBaseFee = none ∨
        f.original.bind decodeTarget = none := by
  unfold replacementSignature
  cases kind.bumpQuote t (lastQuote f) r.quoteBaseFee with
  | none => simp
  | some q => simp only [Option.bind_some,Option.map_eq_none_iff,reduceCtorEq,false_or]

/-- Without a signature nothing changes. -/
theorem replaceCall_none (h : f.replacementSignature kind t decodeTarget r = none) :
    f.replaceCall kind t maxBumps decodeTarget p r = (f,.poll) := by
  unfold replaceCall replaceWithFreshFees
  rw [h]
  split
  · rfl
  · cases f.original <;> rfl

/-- With one a bump is spent. -/
theorem replaceCall_some {g : Signature} (hb : f.bumps < maxBumps)
    (h : f.replacementSignature kind t decodeTarget r = some g) :
    ∃ a, f.replaceCall kind t maxBumps decodeTarget p r =
      ((Goal.replace f).bound a,.rebroadcast) := by
  have hmax : ¬ f.bumps ≥ max (kind.chainKind maxBumps).maxBumps 1 := by
    show ¬ f.bumps ≥ max maxBumps 1
    omega
  obtain ⟨o,ho⟩ : ∃ o, f.original = some o := by
    unfold replacementSignature at h
    obtain ⟨q,-,h⟩ := Option.bind_eq_some_iff.1 h
    obtain ⟨target,htarget,-⟩ := Option.map_eq_some_iff.1 h
    obtain ⟨o,ho,-⟩ := Option.bind_eq_some_iff.1 htarget
    exact ⟨o,ho⟩
  unfold replaceCall replaceWithFreshFees
  rw [if_neg hmax,ho,h]
  exact ⟨_,rfl⟩

theorem escalateCall_eq {step : StuckStep} (h : kind.stuckLadder[f.ladderPos]? = some step) :
    f.escalateCall kind t maxBumps decodeTarget p r = f.follow kind t maxBumps decodeTarget p r
      (f.escalate (kind.chainKind maxBumps) (f.diagnosis kind r)) :=
  if_neg (not_le.2 (lt_of_step h))

theorem escalate_of_step {step : StuckStep} {d : Diagnosis}
    (h : kind.stuckLadder[f.ladderPos]? = some step) :
    f.escalate (kind.chainKind maxBumps) d = match step with
      | .rebroadcast => .sending { f with ladderPos := f.ladderPos+1 }
      | .diagnose =>
        match d.chainNonce with
        | none => .polling f
        | some n =>
          if n < f.nonce then f.needsRecovery
          else if f.nonce < n then .lookingBack { f with ladderPos := f.ladderPos+1 } false true
          else if d.short then .sending { f with ladderPos := f.ladderPos+1 }
          else .polling { f with ladderPos := f.ladderPos+1 }
      | .bump =>
        if d.underpriced && f.bumps < maxBumps then .replacing f
        else .sending { f with ladderPos := f.ladderPos+1 }
      | .noop => .cancelling { f with ladderPos := f.ladderPos+1 } := by
  unfold escalate
  rw [show (kind.chainKind maxBumps).stuckLadder[f.ladderPos]? = some step from h]
  cases step <;> rfl

/-- The steps that are not a bump always progress. -/
theorem progresses_of_not_bump {step : StuckStep}
    (h : kind.stuckLadder[f.ladderPos]? = some step) (hne : step ≠ .bump) :
    f.Progresses kind t maxBumps decodeTarget p r := by
  have hlt := lt_of_step h
  cases step with
  | bump => exact absurd rfl hne
  | rebroadcast =>
    apply progresses_of_down hlt
    rw [escalateCall_eq h,escalate_of_step h]
    rfl
  | noop =>
    apply progresses_of_down hlt
    rw [escalateCall_eq h,escalate_of_step h]
    exact afterBind_cancel_ladderPos _ p _
  | diagnose =>
    unfold Progresses
    rw [escalateCall_eq h,escalate_of_step h]
    have hn : (f.diagnosis kind r).chainNonce = some r.chainNonce := rfl
    generalize f.diagnosis kind r = d at hn ⊢
    dsimp only
    rw [hn]
    dsimp only
    by_cases hlow : r.chainNonce < f.nonce
    · rw [if_pos hlow]
      unfold needsRecovery
      cases f.todo <;> exact .inl rfl
    by_cases hhigh : f.nonce < r.chainNonce
    · rw [if_neg hlow,if_pos hhigh]
      cases hfound : r.found <;> simp [follow,hfound,Next.isDone]
    · rw [if_neg hlow,if_neg hhigh]
      refine .inr (.left _ _ ?_)
      show kind.stuckLadder.length-_ < kind.stuckLadder.length-f.ladderPos
      cases d.short with
      | true =>
        show kind.stuckLadder.length-(f.ladderPos+1) < _
        omega
      | false =>
        show kind.stuckLadder.length-(f.ladderPos+1) < _
        omega

theorem progresses_bump_iff (h : kind.stuckLadder[f.ladderPos]? = some .bump) :
    f.Progresses kind t maxBumps decodeTarget p r ↔ ¬ f.Caught kind t maxBumps decodeTarget r := by
  have hlt := lt_of_step h
  have hcall : f.escalateCall kind t maxBumps decodeTarget p r =
      f.follow kind t maxBumps decodeTarget p r
        (if f.underpriced r.baseFee && f.bumps < maxBumps then .replacing f
          else .sending { f with ladderPos := f.ladderPos+1 }) := by
    rw [escalateCall_eq h,escalate_of_step h]
    rfl
  by_cases hup : (f.underpriced r.baseFee && decide (f.bumps < maxBumps)) = true
  · rw [if_pos hup] at hcall
    have hup' := hup
    simp only [Bool.and_eq_true,decide_eq_true_eq] at hup'
    have hcall' : f.escalateCall kind t maxBumps decodeTarget p r =
        f.replaceCall kind t maxBumps decodeTarget p r := hcall
    cases hsig : f.replacementSignature kind t decodeTarget r with
    | none =>
      rw [replaceCall_none hsig] at hcall'
      refine iff_of_false ?_ ?_
      · unfold Progresses
        rw [hcall']
        rintro (hdone | hlex)
        · cases hdone
        · have hirr : ¬ Prod.Lex (· < ·) (· < ·) (f.left kind maxBumps) (f.left kind maxBumps) := by
            rw [Prod.lex_def]
            omega
          exact hirr hlex
      · exact fun hn => hn ⟨h,hup'.1,hup'.2,replacementSignature_eq_none.1 hsig⟩
    | some g =>
      obtain ⟨a,ha⟩ := replaceCall_some hup'.2 hsig (p := p)
      refine iff_of_true ?_ ?_
      · unfold Progresses
        rw [hcall',ha]
        refine .inr (.right _ ?_)
        show maxBumps-(f.bumps+1) < maxBumps-f.bumps
        omega
      · rintro ⟨-,-,-,hn⟩
        rw [replacementSignature_eq_none.2 hn] at hsig
        cases hsig
  · rw [if_neg hup] at hcall
    refine iff_of_true (progresses_of_down hlt ?_) ?_
    · rw [hcall]
      rfl
    · rintro ⟨-,hu,hb,-⟩
      exact hup (by simp [hu,hb])

/-- A call progresses exactly when the nonce is not caught on its bump. -/
theorem progresses_iff : f.Progresses kind t maxBumps decodeTarget p r ↔
    ¬ f.Caught kind t maxBumps decodeTarget r := by
  cases h : kind.stuckLadder[f.ladderPos]? with
  | none =>
    refine iff_of_true (.inl ?_) ?_
    · rw [escalateCall,if_pos (List.getElem?_eq_none_iff.1 h)]
      rfl
    · rintro ⟨hb,-⟩
      rw [h] at hb
      cases hb
  | some step =>
    by_cases hb : step = .bump
    · subst hb
      exact progresses_bump_iff h
    · refine iff_of_true (progresses_of_not_bump h hb) ?_
      rintro ⟨hb',-⟩
      rw [h] at hb'
      exact hb (Option.some.inj hb')

/-- What moves a nonce between two looks at the chain: an escalation, a replacement because the
node found the fee too low, or the node's word that it has the bytes. -/
inductive StuckMove
  | escalate (r : StuckReads)
  | feeTooLow (r : StuckReads)
  | accepted

variable (kind t maxBumps decodeTarget p)

/-- Whether one of the escalations ends with `Done`. -/
def endsDone : InFlight → List StuckMove → Bool
  | _,[] => false
  | f,.escalate r :: ms =>
    let next := f.escalateCall kind t maxBumps decodeTarget p r
    next.2.isDone || endsDone next.1 ms
  | f,.feeTooLow r :: ms => endsDone (f.replaceCall kind t maxBumps decodeTarget p r).1 ms
  | f,.accepted :: ms => endsDone { f with neverAccepted := false } ms

/-- The nonce is caught at none of the escalations, up to the one that ends it. -/
def Free : InFlight → List StuckMove → Prop
  | _,[] => True
  | f,.escalate r :: ms =>
    let next := f.escalateCall kind t maxBumps decodeTarget p r
    ¬ f.Caught kind t maxBumps decodeTarget r ∧ (next.2.isDone = true ∨ Free next.1 ms)
  | f,.feeTooLow r :: ms => Free (f.replaceCall kind t maxBumps decodeTarget p r).1 ms
  | f,.accepted :: ms => Free { f with neverAccepted := false } ms

instance Free.decidable : ∀ (f : InFlight) (ms : List StuckMove),
    Decidable (f.Free kind t maxBumps decodeTarget p ms)
  | _,[] => .isTrue trivial
  | f,.escalate r :: ms =>
    have := Free.decidable (f.escalateCall kind t maxBumps decodeTarget p r).1 ms
    inferInstanceAs (Decidable (¬ f.Caught kind t maxBumps decodeTarget r ∧
      ((f.escalateCall kind t maxBumps decodeTarget p r).2.isDone = true ∨
        (f.escalateCall kind t maxBumps decodeTarget p r).1.Free kind t maxBumps decodeTarget p ms)))
  | f,.feeTooLow r :: ms => Free.decidable (f.replaceCall kind t maxBumps decodeTarget p r).1 ms
  | f,.accepted :: ms => Free.decidable { f with neverAccepted := false } ms

def escalations (ms : List StuckMove) : Nat :=
  ms.countP fun m => match m with
    | .escalate _ => true
    | _ => false

variable {kind t maxBumps decodeTarget p}

variable (kind t maxBumps decodeTarget p) in
theorem replaceCall_left (f : InFlight) (r : StuckReads) :
    ((f.replaceCall kind t maxBumps decodeTarget p r).1.left kind maxBumps).1 =
        (f.left kind maxBumps).1 ∧
      ((f.replaceCall kind t maxBumps decodeTarget p r).1.left kind maxBumps).2 ≤
        (f.left kind maxBumps).2 := by
  unfold replaceCall replaceWithFreshFees
  split
  · exact ⟨rfl,le_rfl⟩
  · split
    · refine ⟨rfl,?_⟩
      show maxBumps-(f.bumps+1) ≤ maxBumps-f.bumps
      omega
    · exact ⟨rfl,le_rfl⟩

variable (kind t maxBumps decodeTarget p) in
/-- No call gives a bump back. -/
theorem escalateCall_bumps (f : InFlight) (r : StuckReads) :
    ((f.escalateCall kind t maxBumps decodeTarget p r).1.left kind maxBumps).2 ≤
      (f.left kind maxBumps).2 := by
  cases h : kind.stuckLadder[f.ladderPos]? with
  | none =>
    rw [escalateCall,if_pos (List.getElem?_eq_none_iff.1 h)]
  | some step =>
    rw [escalateCall_eq h,escalate_of_step h]
    generalize f.diagnosis kind r = d
    cases step with
    | rebroadcast => exact le_rfl
    | noop =>
      show maxBumps-_ ≤ maxBumps-f.bumps
      cases hs : cancelSignature kind t { f with ladderPos := f.ladderPos+1 } r <;>
        simp [follow,cancelCall,hs,cancel,afterBind,Goal.bound]
    | bump =>
      dsimp only
      split
      · exact (replaceCall_left kind t maxBumps decodeTarget p f r).2
      · exact le_rfl
    | diagnose =>
      dsimp only
      split
      · exact le_rfl
      · split
        · unfold needsRecovery
          split <;> exact le_rfl
        · split
          · exact le_rfl
          · split <;> exact le_rfl

/-- An escalation that goes on spends a step or a bump. -/
theorem left_sum_lt {f : InFlight} {r : StuckReads}
    (hfree : ¬ f.Caught kind t maxBumps decodeTarget r)
    (hgo : (f.escalateCall kind t maxBumps decodeTarget p r).2.isDone = false) :
    ((f.escalateCall kind t maxBumps decodeTarget p r).1.left kind maxBumps).1+
        ((f.escalateCall kind t maxBumps decodeTarget p r).1.left kind maxBumps).2 <
      (f.left kind maxBumps).1+(f.left kind maxBumps).2 := by
  have hbumps := escalateCall_bumps kind t maxBumps decodeTarget p f r
  obtain hdone | hlex := (progresses_iff (p := p)).2 hfree
  · rw [hgo] at hdone
    cases hdone
  · rw [Prod.lex_def] at hlex
    omega

/-- Enough escalations of a nonce that is never caught end it. -/
theorem endsDone_of_free {ms : List StuckMove} {f : InFlight}
    (hfree : f.Free kind t maxBumps decodeTarget p ms)
    (hlen : (f.left kind maxBumps).1+(f.left kind maxBumps).2 < escalations ms) :
    f.endsDone kind t maxBumps decodeTarget p ms = true := by
  induction ms generalizing f with
  | nil => simp [escalations] at hlen
  | cons m ms ih =>
    cases m with
    | escalate r =>
      have hcount : escalations (.escalate r :: ms) = escalations ms+1 :=
        List.countP_cons_of_pos rfl
      rw [endsDone,Bool.or_eq_true]
      cases hdone : (f.escalateCall kind t maxBumps decodeTarget p r).2.isDone with
      | true => exact .inl rfl
      | false =>
        have hlt := left_sum_lt hfree.1 hdone
        refine .inr (ih ?_ (by omega))
        obtain hdone' | hrest := hfree.2
        · rw [hdone] at hdone'
          cases hdone'
        · exact hrest
    | feeTooLow r =>
      have hcount : escalations (.feeTooLow r :: ms) = escalations ms :=
        List.countP_cons_of_neg (by simp)
      have hleft := replaceCall_left kind t maxBumps decodeTarget p f r
      exact ih hfree (by omega)
    | accepted =>
      have hcount : escalations (.accepted :: ms) = escalations ms :=
        List.countP_cons_of_neg (by simp)
      exact ih hfree (hcount ▸ hlen)

end InFlight

/-- A call progresses exactly when its nonce is not caught on the bump; a nonce that never is
ends after as many escalations as there are steps and bumps, and one. -/
theorem escalation_progresses_iff (kind : AdapterKind) (t : FeeTunables) (maxBumps : Nat)
    (decodeTarget : Attempt → Option (Address × Bytes)) (p : PairKey) :
    (∀ (f : InFlight) (r : StuckReads), f.Progresses kind t maxBumps decodeTarget p r ↔
      ¬ f.Caught kind t maxBumps decodeTarget r) ∧
    ∀ (f : InFlight) (ms : List InFlight.StuckMove), f.Free kind t maxBumps decodeTarget p ms →
      kind.stuckLadder.length+maxBumps+1 ≤ InFlight.escalations ms →
      f.endsDone kind t maxBumps decodeTarget p ms = true := by
  refine ⟨fun f r => InFlight.progresses_iff,fun f ms hfree hlen => ?_⟩
  apply InFlight.endsDone_of_free hfree
  show kind.stuckLadder.length-f.ladderPos+(maxBumps-f.bumps) < _
  omega

namespace Sample

def cappedTunables : FeeTunables := ⟨20000,1,100,130⟩

/-- A nonce on its bump whose attempt already pays the cap of 100. -/
def atFeeCap : InFlight where
  owner := .job 1
  nonce := 0
  older := []
  last := ⟨1,1,9,0,.job,.job 1,71,[2],21000,100,1,5,.broadcast,none,none⟩
  neverAccepted := false
  ladderPos := 2
  bumps := 0
  firstBroadcast := false
  parked := false
  todo := none

/-- The base fee has risen above what the attempt pays. -/
def highBaseFee : StuckReads := ⟨0,none,1000000000,2100005,5,150,150,⟨2,72,[3],0,0,0,0⟩⟩

end Sample

/-- At the fee cap every escalation leaves the nonce as it was, for ever: neither the cancel nor
the operator is reached. -/
theorem caught_at_fee_cap :
    let decodeTarget : Attempt → Option (Address × Bytes) := fun _ => some (1,[])
    Sample.atFeeCap.escalateCall .geth Sample.cappedTunables 5 decodeTarget Sample.pair
        Sample.highBaseFee = (Sample.atFeeCap,.poll) ∧
      ¬ Sample.atFeeCap.Progresses .geth Sample.cappedTunables 5 decodeTarget Sample.pair
        Sample.highBaseFee ∧
      ∀ n, Sample.atFeeCap.endsDone .geth Sample.cappedTunables 5 decodeTarget Sample.pair
        (List.replicate n (.escalate Sample.highBaseFee)) = false := by
  intro decodeTarget
  have hcall : Sample.atFeeCap.escalateCall .geth Sample.cappedTunables 5 decodeTarget Sample.pair
      Sample.highBaseFee = (Sample.atFeeCap,.poll) := by decide +kernel
  refine ⟨hcall,?_,fun n => ?_⟩
  · rw [InFlight.progresses_iff,not_not]
    exact ⟨rfl,by decide +kernel,by decide,.inl (by decide +kernel)⟩
  · induction n with
    | zero => rfl
    | succ n ih =>
      rw [List.replicate_succ,InFlight.endsDone,hcall]
      exact ih

/-- A cap that leaves room for replacements. -/
def Sample.roomyTunables : FeeTunables := ⟨20000,1,10000,13000⟩

theorem escalation_progresses_iff_room :
    let decodeTarget : Attempt → Option (Address × Bytes) := fun _ => some (1,[])
    (Sample.atFeeCap.Progresses .geth Sample.roomyTunables 1 decodeTarget Sample.pair
        Sample.highBaseFee ↔
      ¬ Sample.atFeeCap.Caught .geth Sample.roomyTunables 1 decodeTarget Sample.highBaseFee) ∧
    Sample.atFeeCap.endsDone .geth Sample.roomyTunables 1 decodeTarget Sample.pair
      (List.replicate 6 (.escalate Sample.highBaseFee)) = true := by
  intro decodeTarget
  have h := escalation_progresses_iff .geth Sample.roomyTunables 1 decodeTarget Sample.pair
  exact ⟨h.1 _ _,h.2 _ _ (by decide +kernel) (by decide)⟩

end GumEngine
