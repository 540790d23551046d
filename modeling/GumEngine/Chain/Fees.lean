import GumEngine.Numeric.Saturating

/-!
# Fees of a transaction and of its replacements

`fee_quote` and `bump_pct` of `chain/adapter.rs` and the `replacement` rules of the kinds. A
job is sent with a fresh quote and replaced, each time at the current base fee, as long as
the cap of jobs leaves room; what gives its nonce free is a last replacement under the cap
of cancels.
-/

namespace GumEngine

/-- The kinds of `chain/kinds`. -/
inductive AdapterKind
  | geth | opstack | arc | monad | arbitrum
deriving DecidableEq, Repr

structure FeeQuote where
  maxFeePerGas : Nat
  maxPriorityFeePerGas : Nat
deriving DecidableEq, Repr

/-- The tunables that fees depend on. -/
structure FeeTunables where
  maxFeeMultiplierBps : Nat
  priorityFeeWei : Nat
  maxFeeCapWei : Nat
  cancelFeeCapWei : Nat
deriving DecidableEq, Repr

/-- `u128::MAX` -/
def u128Max : Nat := Saturating.top 128

/-- `capabilities().replacement` -/
def AdapterKind.hasReplacement : AdapterKind → Bool
  | arbitrum => false
  | _ => true

/-- `base_fee.saturating_mul(t.max_fee_multiplier_bps) / 10_000` -/
def FeeTunables.scaled (t : FeeTunables) (baseFee : Nat) : Nat :=
  Saturating.mul 128 baseFee t.maxFeeMultiplierBps/10000

/-- Fees for a fresh transaction given the latest known base fee. -/
def feeQuote (baseFee : Nat) (t : FeeTunables) : FeeQuote :=
  let maxFee := max (min (Saturating.add 128 (t.scaled baseFee) t.priorityFeeWei) t.maxFeeCapWei)
    t.priorityFeeWei
  ⟨maxFee,min t.priorityFeeWei maxFee⟩

/-- `prev * (100 + pct) / 100`, rounded up, and always at least one wei more. -/
def bumpPct (prev pct : Nat) : Nat :=
  max ((Saturating.mul 128 prev (100+pct)+99)/100) (Saturating.add 128 prev 1)

/-- Both fee fields must rise by at least 10%. -/
def gethReplacement (prev : FeeQuote) (baseFee cap : Nat) (t : FeeTunables) : Option FeeQuote :=
  let minFee := bumpPct prev.maxFeePerGas 10
  let minTip := bumpPct prev.maxPriorityFeePerGas 10
  -- The normal quote against the current base fee, but never below the pool's minimum bump.
  let target := Saturating.add 128 (t.scaled baseFee) minTip
  let maxFee := max target minFee
  if maxFee > cap then
    if minFee ≤ cap then some ⟨cap,min minTip cap⟩ else none
  else some ⟨maxFee,min minTip maxFee⟩

def gethAcceptsReplacement (prev next : FeeQuote) : Bool :=
  next.maxFeePerGas ≥ bumpPct prev.maxFeePerGas 10 &&
    next.maxPriorityFeePerGas ≥ bumpPct prev.maxPriorityFeePerGas 10

/-- A strictly higher `max_fee` and a tip that is not lower; no 10% rule. -/
def monadReplacement (prev : FeeQuote) (baseFee cap : Nat) (t : FeeTunables) : Option FeeQuote :=
  let target := Saturating.add 128 (t.scaled baseFee) prev.maxPriorityFeePerGas
  let maxFee := min (max target (Saturating.add 128 prev.maxFeePerGas 1)) cap
  if maxFee > prev.maxFeePerGas then some ⟨maxFee,min prev.maxPriorityFeePerGas maxFee⟩ else none

def monadAcceptsReplacement (prev next : FeeQuote) : Bool :=
  next.maxFeePerGas > prev.maxFeePerGas && next.maxPriorityFeePerGas ≥ prev.maxPriorityFeePerGas

/-- Fees for replacing `prev` at the same nonce, never exceeding `cap`. -/
def AdapterKind.replacement (kind : AdapterKind) (prev : FeeQuote) (baseFee cap : Nat)
    (t : FeeTunables) : Option FeeQuote :=
  match kind with
  | geth | opstack | arc => gethReplacement prev baseFee cap t
  | monad => monadReplacement prev baseFee cap t
  | arbitrum => none

/-- Whether this chain's pool takes `next` for `prev`. -/
def AdapterKind.acceptsReplacement (kind : AdapterKind) (prev next : FeeQuote) : Bool :=
  match kind with
  | geth | opstack | arc => gethAcceptsReplacement prev next
  | monad => monadAcceptsReplacement prev next
  | arbitrum => false

/-- The quotes of the job replacements at the given base fees, up to the first that is refused. -/
def AdapterKind.replacements (kind : AdapterKind) (t : FeeTunables) : FeeQuote → List Nat → List FeeQuote
  | _,[] => []
  | prev,base :: bases =>
    match kind.replacement prev base t.maxFeeCapWei t with
    | none => []
    | some next => next :: kind.replacements t next bases

/-- All quotes of a job: the fresh one and its replacements. -/
def AdapterKind.quotes (kind : AdapterKind) (t : FeeTunables) (base : Nat) (bases : List Nat) :
    List FeeQuote :=
  feeQuote base t :: kind.replacements t (feeQuote base t) bases

/-! ## One replacement -/

/-- The tip does not exceed what is paid. -/
def FeeQuote.Sane (q : FeeQuote) : Prop := q.maxPriorityFeePerGas ≤ q.maxFeePerGas

theorem bumpPct_mono {p q : Nat} (h : p ≤ q) (pct : Nat) : bumpPct p pct ≤ bumpPct q pct := by
  unfold bumpPct
  refine max_le_max ?_ (Saturating.add_mono h le_rfl)
  have := Saturating.mul_mono (w := 128) h (le_refl (100+pct))
  omega

/-- A bump that is not saturated is a bump. -/
theorem lt_of_bumpPct_lt {p pct : Nat} (h : bumpPct p pct < u128Max) : p < bumpPct p pct := by
  have hle : Saturating.add 128 p 1 ≤ bumpPct p pct := le_max_right _ _
  have heq : Saturating.add 128 p 1 = p+1 := Saturating.add_eq_of_lt_top (hle.trans_lt h)
  omega

theorem feeQuote_sane (base : Nat) (t : FeeTunables) : (feeQuote base t).Sane := min_le_right _ _

theorem feeQuote_le (base : Nat) (t : FeeTunables) :
    (feeQuote base t).maxFeePerGas ≤ max t.maxFeeCapWei t.priorityFeeWei :=
  max_le_max_right _ (min_le_right _ _)

/-- What one replacement under a cap below the largest word is. -/
structure Replaces (kind : AdapterKind) (prev : FeeQuote) (cap : Nat) (next : FeeQuote) : Prop where
  accepted : kind.acceptsReplacement prev next = true
  capped : next.maxFeePerGas ≤ cap
  sane : next.Sane
  raised : prev.maxFeePerGas < next.maxFeePerGas

section Replacement

variable {kind : AdapterKind} {prev next : FeeQuote} {base cap : Nat} {t : FeeTunables}

theorem gethReplacement_spec (hp : prev.Sane) (h : gethReplacement prev base cap t = some next) :
    gethAcceptsReplacement prev next = true ∧ next.maxFeePerGas ≤ cap ∧ next.Sane := by
  have htip : bumpPct prev.maxPriorityFeePerGas 10 ≤ bumpPct prev.maxFeePerGas 10 :=
    bumpPct_mono hp 10
  unfold gethReplacement at h
  simp only at h
  split at h
  · -- The target is above the cap: the cap itself, if it clears the minimum.
    split at h
    next hmin =>
      cases h
      refine ⟨?_,le_rfl,min_le_right _ _⟩
      simp only [gethAcceptsReplacement,ge_iff_le,Bool.and_eq_true,decide_eq_true_eq]
      exact ⟨hmin,le_min le_rfl (htip.trans hmin)⟩
    · cases h
  next hcap =>
    cases h
    refine ⟨?_,not_lt.mp hcap,min_le_right _ _⟩
    simp only [gethAcceptsReplacement,ge_iff_le,Bool.and_eq_true,decide_eq_true_eq]
    exact ⟨le_max_right _ _,le_min le_rfl (htip.trans (le_max_right _ _))⟩

theorem gethReplacement_raises (hcap : cap < u128Max) (hp : prev.Sane)
    (h : gethReplacement prev base cap t = some next) : prev.maxFeePerGas < next.maxFeePerGas := by
  obtain ⟨ha,hle,-⟩ := gethReplacement_spec hp h
  simp only [gethAcceptsReplacement,ge_iff_le,Bool.and_eq_true,decide_eq_true_eq] at ha
  exact (lt_of_bumpPct_lt (ha.1.trans_lt (hle.trans_lt hcap))).trans_le ha.1

theorem monadReplacement_spec (hp : prev.Sane) (h : monadReplacement prev base cap t = some next) :
    monadAcceptsReplacement prev next = true ∧ next.maxFeePerGas ≤ cap ∧ next.Sane := by
  unfold monadReplacement at h
  simp only at h
  split at h
  next hlt =>
    cases h
    refine ⟨?_,min_le_right _ _,min_le_right _ _⟩
    simp only [monadAcceptsReplacement,gt_iff_lt,ge_iff_le,Bool.and_eq_true,decide_eq_true_eq]
    exact ⟨hlt,le_min le_rfl (hp.trans hlt.le)⟩
  · cases h

/-- One replacement, whatever the base fee. -/
theorem replacement_replaces (hcap : cap < u128Max) (hp : prev.Sane)
    (h : kind.replacement prev base cap t = some next) : Replaces kind prev cap next := by
  have hgeth (h : gethReplacement prev base cap t = some next) :
      gethAcceptsReplacement prev next = true ∧ next.maxFeePerGas ≤ cap ∧ next.Sane ∧
        prev.maxFeePerGas < next.maxFeePerGas := by
    obtain ⟨ha,hle,hs⟩ := gethReplacement_spec hp h
    exact ⟨ha,hle,hs,gethReplacement_raises hcap hp h⟩
  cases kind with
  | geth | opstack | arc =>
    obtain ⟨ha,hle,hs,hr⟩ := hgeth h
    exact ⟨ha,hle,hs,hr⟩
  | monad =>
    obtain ⟨ha,hle,hs⟩ := monadReplacement_spec hp h
    refine ⟨ha,hle,hs,?_⟩
    simp only [monadAcceptsReplacement,gt_iff_lt,Bool.and_eq_true,decide_eq_true_eq] at ha
    exact ha.1
  | arbitrum => cases h

/-- A cap with room for a bump leaves an acceptable quote. -/
theorem replacement_isSome (hk : kind.hasReplacement = true) (hcap : cap < u128Max)
    (hroom : bumpPct prev.maxFeePerGas 10 ≤ cap) :
    (kind.replacement prev base cap t).isSome = true := by
  have hgeth : (gethReplacement prev base cap t).isSome = true := by
    unfold gethReplacement
    simp only [hroom,if_true]
    split <;> rfl
  cases kind with
  | geth | opstack | arc => exact hgeth
  | monad =>
    show (monadReplacement prev base cap t).isSome = true
    unfold monadReplacement
    simp only
    have hle : Saturating.add 128 prev.maxFeePerGas 1 ≤ cap := (le_max_right _ _).trans hroom
    have heq := Saturating.add_eq_of_lt_top (hle.trans_lt hcap)
    rw [if_pos]
    · rfl
    · rw [gt_iff_lt,lt_min_iff]
      refine ⟨lt_max_of_lt_right ?_,?_⟩ <;> omega
  | arbitrum => cases hk

end Replacement

/-! ## The quotes of a job -/

section Chain

variable {kind : AdapterKind} {t : FeeTunables} {prev : FeeQuote}

/-- Every quote of the chain is a replacement of the one before it. -/
theorem replacements_chain (hcap : t.maxFeeCapWei < u128Max) (hp : prev.Sane) (bases : List Nat) :
    (prev :: kind.replacements t prev bases).IsChain
      fun p q => p.Sane ∧ Replaces kind p t.maxFeeCapWei q := by
  induction bases generalizing prev with
  | nil => exact List.isChain_singleton prev
  | cons base bases ih =>
    unfold AdapterKind.replacements
    cases hr : kind.replacement prev base t.maxFeeCapWei t with
    | none => exact List.isChain_singleton prev
    | some next =>
      have hnext := replacement_replaces hcap hp hr
      exact List.isChain_cons_cons.mpr ⟨⟨hp,hnext⟩,ih hnext.sane⟩

/-- What replaces is within the cap, and each replacement uses some of the room it leaves. -/
theorem replacements_capped (hcap : t.maxFeeCapWei < u128Max) (hp : prev.Sane) (bases : List Nat) :
    (∀ q ∈ kind.replacements t prev bases, q.maxFeePerGas ≤ t.maxFeeCapWei ∧ q.Sane) ∧
      (kind.replacements t prev bases).length ≤ t.maxFeeCapWei-prev.maxFeePerGas := by
  induction bases generalizing prev with
  | nil => exact ⟨fun q hq => absurd hq List.not_mem_nil,Nat.zero_le _⟩
  | cons base bases ih =>
    unfold AdapterKind.replacements
    cases hr : kind.replacement prev base t.maxFeeCapWei t with
    | none => exact ⟨fun q hq => absurd hq List.not_mem_nil,Nat.zero_le _⟩
    | some next =>
      have hnext := replacement_replaces hcap hp hr
      obtain ⟨hall,hlen⟩ := ih hnext.sane
      refine ⟨fun q hq => ?_,?_⟩
      · rcases List.mem_cons.mp hq with rfl | hq
        · exact ⟨hnext.capped,hnext.sane⟩
        · exact hall q hq
      · have hraised := hnext.raised
        have hcapped := hnext.capped
        show (kind.replacements t next bases).length+1 ≤ _
        omega

end Chain

/-- Over every chain of quotes of a job, at any base fees: each replaces its predecessor and
stays within the cap of jobs; no tip is above its fee; the fresh one is at most the cap or the
priority fee; there are finitely many; and the cancel after any of them replaces it within its
own cap, and exists if that cap is a bump above all of them. -/
theorem quotes_replaceable (kind : AdapterKind) (hk : kind.hasReplacement = true) (t : FeeTunables)
    (hcap : t.maxFeeCapWei < u128Max) (hcancel : t.cancelFeeCapWei < u128Max) (base : Nat)
    (bases : List Nat) (cancelBase : Nat) :
    (kind.quotes t base bases).IsChain (fun p q => kind.acceptsReplacement p q = true) ∧
    (∀ q ∈ kind.replacements t (feeQuote base t) bases, q.maxFeePerGas ≤ t.maxFeeCapWei) ∧
    (∀ q ∈ kind.quotes t base bases, q.maxPriorityFeePerGas ≤ q.maxFeePerGas) ∧
    (feeQuote base t).maxFeePerGas ≤ max t.maxFeeCapWei t.priorityFeeWei ∧
    (kind.replacements t (feeQuote base t) bases).length ≤
      t.maxFeeCapWei-(feeQuote base t).maxFeePerGas ∧
    ∀ last, (kind.quotes t base bases).getLast? = some last →
      (∀ q, kind.replacement last cancelBase t.cancelFeeCapWei t = some q →
        kind.acceptsReplacement last q = true ∧ q.maxFeePerGas ≤ t.cancelFeeCapWei ∧
          q.maxPriorityFeePerGas ≤ q.maxFeePerGas) ∧
      (bumpPct (max t.maxFeeCapWei t.priorityFeeWei) 10 ≤ t.cancelFeeCapWei →
        kind.replacement last cancelBase t.cancelFeeCapWei t ≠ none) := by
  have hfresh := feeQuote_sane base t
  obtain ⟨hall,hlen⟩ := replacements_capped hcap hfresh bases
  have hbound : ∀ q ∈ kind.quotes t base bases,
      q.maxFeePerGas ≤ max t.maxFeeCapWei t.priorityFeeWei ∧ q.Sane := by
    intro q hq
    rcases List.mem_cons.mp hq with rfl | hq
    · exact ⟨feeQuote_le base t,hfresh⟩
    · exact ⟨le_max_of_le_left (hall q hq).1,(hall q hq).2⟩
  refine ⟨?_,fun q hq => (hall q hq).1,fun q hq => (hbound q hq).2,feeQuote_le base t,hlen,?_⟩
  · exact (replacements_chain hcap hfresh bases).imp fun p q h => h.2.accepted
  · intro last hlast
    obtain ⟨hle,hsane⟩ := hbound last (List.mem_of_getLast? hlast)
    refine ⟨fun q hq => ?_,fun hroom => ?_⟩
    · have hr := replacement_replaces hcancel hsane hq
      exact ⟨hr.accepted,hr.capped,hr.sane⟩
    · have hlast := (bumpPct_mono hle 10).trans hroom
      exact Option.isSome_iff_ne_none.mp (replacement_isSome hk hcancel hlast)

/-- A job on the geth kind with its defaults, while the base fee climbs past the cap. -/
theorem quotes_replaceable_geth :
    (AdapterKind.geth.quotes ⟨20000,1000000000,500000000000,650000000000⟩ 100000000000
        [300000000000,400000000000]).map (·.maxFeePerGas) =
      [201000000000,500000000000] ∧
    (AdapterKind.geth.replacement ⟨500000000000,1100000000⟩ 400000000000 650000000000
      ⟨20000,1000000000,500000000000,650000000000⟩ ≠ none) := by
  have h := quotes_replaceable .geth rfl ⟨20000,1000000000,500000000000,650000000000⟩
    (by decide) (by decide) 100000000000 [300000000000,400000000000] 400000000000
  exact ⟨by decide,(h.2.2.2.2.2 ⟨500000000000,1100000000⟩ (by decide)).2 (by decide)⟩

end GumEngine
