import GumEngine.Pipeline.Deadline
import GumEngine.Text.Lowercase

/-!
# Failed estimates

What `process` makes of a failed `eth_estimateGas`. The adapters tell missing funds from a revert by
the words of the message, and a contract chooses the words it reverts with.
-/

namespace GumEngine
open Text Transition

/-- The code and the text that is searched: the message, and the data after it. -/
def messageOf (u : CaseData) : RpcError → Option (Int × String)
  | .response code message data =>
    some (code,match data with
      | some d => u.toLowercase message ++ " " ++ u.toLowercase d
      | none => u.toLowercase message)
  | _ => none

/-- Whether a failed estimate means that the sender cannot cover the call's value. -/
def AdapterKind.estimateLacksFunds (u : CaseData) (kind : AdapterKind) (err : RpcError) : Bool :=
  match kind with
  | .arc =>
    (messageOf u err).any fun (_,text) =>
      containsAny text ["insufficient funds","revert: outoffunds"]
  | .geth | .opstack | .monad | .arbitrum =>
    match err with
    | .response _ message _ => contains (u.toLowercase message) "insufficient funds"
    | _ => false

/-- `trim_start_matches("0x")` takes off as many as there are. -/
def trimStart0x : List Char → List Char
  | '0' :: 'x' :: cs => trimStart0x cs
  | cs => cs

def hexDecode : List Char → Option Bytes
  | [] => some []
  | [_] => none
  | a :: b :: cs => do
    let high ← toDigit 16 a
    let low ← toDigit 16 b
    let rest ← hexDecode cs
    return UInt8.ofNat (16*high+low) :: rest

def revertBytes (data : String) : Option Bytes :=
  hexDecode (trimStart0x ((data.toList.dropWhile (· = '"')).rdropWhile (· = '"')))

/-- The arms of `process` on the answer to its estimate. -/
def readEstimate (u : CaseData) (kind : AdapterKind) : Except RpcError Nat → Estimate
  | .ok g => .gas g
  | .error e =>
    if kind.estimateLacksFunds u e then .lacksFunds
    else
      match e with
      | .response _ message data => .refused message (data.bind revertBytes)
      | _ => .unavailable

/-- A node's answer to a call that reverts with reason `r`. -/
def reverted (code : Int) (r : String) (data : Option String) : RpcError :=
  .response code ("execution reverted: " ++ r) data

/-- The words of an adapter for missing funds. -/
def AdapterKind.fundsWords : AdapterKind → List String
  | .arc => ["insufficient funds","revert: outoffunds"]
  | .geth | .opstack | .monad | .arbitrum => ["insufficient funds"]

/-- What an adapter searches of a revert: arc does not stop at the reason. -/
def AdapterKind.searched (u : CaseData) : AdapterKind → String → Option String → String
  | .arc,r,some d => u.toLowercase r ++ " " ++ u.toLowercase d
  | _,r,_ => u.toLowercase r

/-- The contract's own words are those for missing funds. -/
def AdapterKind.Mentions (u : CaseData) (kind : AdapterKind) (r : String) (data : Option String) :
    Prop :=
  ∃ n ∈ kind.fundsWords, n.toList <:+: (kind.searched u r data).toList

instance (u : CaseData) (kind : AdapterKind) (r : String) (data : Option String) :
    Decidable (kind.Mentions u r data) :=
  inferInstanceAs (Decidable (∃ n ∈ kind.fundsWords, n.toList <:+: (kind.searched u r data).toList))

/-! ## What is searched -/

section Words

variable {u : CaseData} {kind : AdapterKind} {code : Int} {r : String} {data : Option String}

theorem containsAny_iff {text : String} {words : List String} :
    containsAny text words = true ↔ ∃ n ∈ words, n.toList <:+: text.toList := by
  simp [containsAny,contains]

/-- The words in front of a reason have no part in the words for missing funds. -/
theorem infix_reverted_iff {n text : String} (hn : n ∈ AdapterKind.fundsWords .arc) :
    n.toList <:+: ("execution reverted: " ++ text).toList ↔ n.toList <:+: text.toList := by
  rw [String.toList_append]
  refine infix_append_iff ?_
  simp only [AdapterKind.fundsWords,List.mem_cons,List.not_mem_nil,or_false] at hn
  obtain rfl | rfl := hn
  · decide
  · decide

theorem toLowercase_reverted (r : String) :
    u.toLowercase ("execution reverted: " ++ r) = "execution reverted: " ++ u.toLowercase r := by
  have hsplit : "execution reverted: " = "execution reverted:" ++ " " := by decide +kernel
  rw [hsplit]
  exact toLowercase_append (by simp)

theorem fundsWords_arc {n : String} (hn : n ∈ kind.fundsWords) :
    n ∈ AdapterKind.fundsWords .arc := by
  cases kind with
  | arc => exact hn
  | _ => exact List.mem_cons.2 (.inl (List.mem_singleton.1 hn))

/-- The adapter finds its words for missing funds exactly in the contract's own. -/
theorem estimateLacksFunds_reverted :
    kind.estimateLacksFunds u (reverted code r data) = true ↔ kind.Mentions u r data := by
  have hsearch : kind.estimateLacksFunds u (reverted code r data) =
      containsAny ("execution reverted: " ++ kind.searched u r data) kind.fundsWords := by
    cases kind with
    | arc =>
      cases data with
      | none =>
        simp only [AdapterKind.estimateLacksFunds,messageOf,reverted,toLowercase_reverted,
          Option.any_some,AdapterKind.searched,AdapterKind.fundsWords]
      | some d =>
        simp only [AdapterKind.estimateLacksFunds,messageOf,reverted,toLowercase_reverted,
          Option.any_some,AdapterKind.searched,AdapterKind.fundsWords,String.append_assoc]
    | _ =>
      simp only [AdapterKind.estimateLacksFunds,reverted,toLowercase_reverted,
        AdapterKind.searched,AdapterKind.fundsWords,containsAny,List.any_cons,List.any_nil,
        Bool.or_false]
  rw [hsearch,containsAny_iff]
  exact exists_congr fun n => and_congr_right fun hn => infix_reverted_iff (fundsWords_arc hn)

end Words

/-! ## What becomes of the job -/

/-- How long a worker waits after it has given the job back, in seconds, by where it did so. -/
def ProcessAt.backoff : ProcessAt → Nat
  | .funding _ _ | .returning _ | .signing _ _ | .resolving => 0
  | .estimating | .quoting _ | .failing _ _ _ | .binding _ _ | .calling _ _ _ => 1

/-- `fail_unbound` of a job whose estimate reverts. -/
def reverting (r : String) (data : Option String) : ProcessAt :=
  .failing .simulationReverted ("gas estimation failed: " ++ ("execution reverted: " ++ r))
    (data.bind revertBytes)

namespace JobRun

variable {S : Type}

/-- The backoff with which an answer makes a worker give the job back, if it does. -/
def backoff (c : ProcessConfig) (pair : S → PairKey) (job : QueuedJob) (s : JobRun S) (w : S)
    (x : ProcessAnswer) : Option Nat :=
  match s.worker w with
  | none => none
  | some h =>
    match (onward c (pair w) job s.now s.store h.stage x).1 with
    | .ends (some (.requeue _)) => some h.stage.backoff
    | _ => none

/-- The node answers every estimate with `err`. -/
def Estimates (u : CaseData) (kind : AdapterKind) (err : RpcError) (_ : JobRun S) :
    JobEvent S → Prop
  | .answer _ (.estimated e) => e = readEstimate u kind (.error err)
  | _ => True

variable [DecidableEq S]

/-- The job fails as reverting: a worker that gets the answer goes to write so, the write fails the
job if it is queued, and no worker ever gives the job back without backoff. -/
structure Fails (u : CaseData) (c : ProcessConfig) (pair : S → PairKey) (job : QueuedJob)
    (code : Int) (r : String) (data : Option String) (s : JobRun S) : Prop where
  answered : ∀ w, ∀ h ∈ s.worker w, h.stage = .estimating →
    (s.step c pair job (.answer w (.estimated
      (readEstimate u c.kind (.error (reverted code r data)))))).worker w =
        some ⟨h.began,reverting r data⟩
  failed : ∀ w, ∀ h ∈ s.worker w, h.stage = reverting r data → ∀ call : Call,
    call.writes = true → ∀ j, s.store.job job.id = some j → j.status = .queued →
      ∃ j' ∈ (s.step c pair job (.answer w (.failed call))).store.job job.id,
        j'.status = .failed ∧ j'.errorCode = some .simulationReverted
  never : ∀ w x, s.Estimates u c.kind (reverted code r data) (.answer w x) →
    s.backoff c pair job w x ≠ some 0

/-- Every worker waits for its estimate, or writes why the job has failed. -/
def Reverting (r : String) (data : Option String) (s : JobRun S) : Prop :=
  ∀ w, ∀ h ∈ s.worker w, h.stage = .estimating ∨ h.stage = expiring ∨ h.stage = reverting r data

variable {u : CaseData} {c : ProcessConfig} {pair : S → PairKey} {job : QueuedJob} {code : Int}
  {r : String} {data : Option String} {s : JobRun S} {w : S} {h : Handling} {x : ProcessAnswer}

theorem readEstimate_reverted {kind : AdapterKind} (hm : ¬kind.Mentions u r data) :
    readEstimate u kind (.error (reverted code r data)) =
      .refused ("execution reverted: " ++ r) (data.bind revertBytes) := by
  have hfunds : ¬kind.estimateLacksFunds u (reverted code r data) = true :=
    mt estimateLacksFunds_reverted.1 hm
  simp only [readEstimate,if_neg hfunds]
  rfl

theorem readEstimate_mentions {kind : AdapterKind} (hm : kind.Mentions u r data) :
    readEstimate u kind (.error (reverted code r data)) = .lacksFunds := by
  simp only [readEstimate,estimateLacksFunds_reverted.2 hm,if_true]

omit [DecidableEq S] in
theorem Estimates.read {kind : AdapterKind} {err : RpcError}
    (hx : s.Estimates u kind err (.answer w x)) :
    ∀ e, x = .estimated e → e = readEstimate u kind (.error err) := by
  rintro e rfl
  exact hx

theorem onward_estimating (hm : ¬c.kind.Mentions u r data) (p : PairKey) (now : Nat) (st : Store)
    (hx : ∀ e, x = .estimated e →
      e = readEstimate u c.kind (.error (reverted code r data))) :
    onward c p job now st .estimating x = (.goes .estimating,st) ∨
      onward c p job now st .estimating x = (.goes (reverting r data),st) := by
  cases x with
  | estimated e =>
    right
    rw [hx e rfl,readEstimate_reverted hm]
    rfl
  | _ => exact .inl rfl

/-- What an answer can make of a worker that waits for its estimate or writes a failure: it goes on
so, or it ends, and gives the job back only where the write has failed. -/
theorem onward_reverting (job : QueuedJob) (hm : ¬c.kind.Mentions u r data) (p : PairKey)
    (now : Nat) (st : Store)
    (hx : ∀ e, x = .estimated e → e = readEstimate u c.kind (.error (reverted code r data)))
    (hh : h.stage = .estimating ∨ h.stage = expiring ∨ h.stage = reverting r data) :
    (∃ stage, (onward c p job now st h.stage x).1 = .goes stage ∧
      (stage = .estimating ∨ stage = expiring ∨ stage = reverting r data)) ∨
    h.stage.backoff = 1 ∧ ∃ d, (onward c p job now st h.stage x).1 = .ends d := by
  obtain hh | hh | hh := hh
  · rw [hh]
    obtain heq | heq := onward_estimating hm p now st hx
    · exact .inl ⟨_,by rw [heq],.inl rfl⟩
    · exact .inl ⟨_,by rw [heq],.inr (.inr rfl)⟩
  · rw [hh]
    obtain heq | ⟨call,-,heq⟩ := onward_expiring c p job now st x
    · exact .inl ⟨_,by rw [heq],.inr (.inl rfl)⟩
    · obtain ⟨d,hd⟩ := failUnbound_ends job st .expired
        "deadline passed before the job could be sent" none call
      exact .inr ⟨rfl,d,by rw [heq,hd]⟩
  · rw [hh,reverting]
    obtain heq | ⟨call,-,heq⟩ := onward_failing c p job now st .simulationReverted
      ("gas estimation failed: " ++ ("execution reverted: " ++ r)) (data.bind revertBytes) x
    · exact .inl ⟨_,by rw [heq],.inr (.inr rfl)⟩
    · obtain ⟨d,hd⟩ := failUnbound_ends job st .simulationReverted
        ("gas estimation failed: " ++ ("execution reverted: " ++ r)) (data.bind revertBytes) call
      exact .inr ⟨rfl,d,by rw [heq,hd]⟩

theorem step_of_worker (hw : s.worker w = some h) :
    s.step c pair job (.answer w x) = s.answer c pair job w h x := by
  simp only [JobRun.step,hw]

theorem step_of_no_worker (hw : s.worker w = none) : s.step c pair job (.answer w x) = s := by
  simp only [JobRun.step,hw]

theorem Reverting.update (hs : s.Reverting r data) {o : Option Handling}
    (ho : ∀ h ∈ o, h.stage = .estimating ∨ h.stage = expiring ∨ h.stage = reverting r data) :
    ∀ v, ∀ h ∈ Function.update s.worker w o v,
      h.stage = .estimating ∨ h.stage = expiring ∨ h.stage = reverting r data := by
  intro v h hv
  by_cases hvw : v = w
  · subst hvw
    rw [Function.update_self] at hv
    exact ho h hv
  · rw [Function.update_of_ne hvw] at hv
    exact hs v h hv

theorem process_estimating (hg : job.request.gasLimit = none) (now : Nat) :
    process job now = .estimating ∨ process job now = expiring := by
  rw [process,hg]
  by_cases hlate : job.request.deadline.any (· ≤ now)
  · exact .inr (if_pos hlate)
  · exact .inl (if_neg hlate)

theorem Reverting.step (hg : job.request.gasLimit = none) (hm : ¬c.kind.Mentions u r data)
    (hs : s.Reverting r data) {e : JobEvent S}
    (he : s.Estimates u c.kind (reverted code r data) e) :
    (s.step c pair job e).Reverting r data := by
  cases e with
  | tick n => exact hs
  | other op => exact hs
  | handle w =>
    refine hs.update fun h hh => ?_
    obtain rfl := Option.some.inj hh
    obtain hp | hp := process_estimating hg s.now
    · exact .inl hp
    · exact .inr (.inl hp)
  | answer w x =>
    cases hw : s.worker w with
    | none =>
      rw [step_of_no_worker hw]
      exact hs
    | some h =>
      rw [step_of_worker hw,JobRun.answer]
      cases hon : onward c (pair w) job s.now s.store h.stage x with
      | mk o st =>
        obtain ⟨stage,hgo,hstage⟩ | ⟨-,d,hend⟩ :=
          onward_reverting job hm (pair w) s.now s.store he.read (hs w h hw)
        · rw [hon] at hgo
          obtain rfl : o = .goes stage := hgo
          refine hs.update fun g hgm => ?_
          obtain rfl := Option.some.inj hgm
          exact hstage
        · rw [hon] at hend
          obtain rfl : o = .ends d := hend
          exact hs.update (by simp)

theorem Reverting.fails (hm : ¬c.kind.Mentions u r data) (hs : s.Reverting r data) :
    s.Fails u c pair job code r data where
  answered w h hh hstage := by
    rw [step_of_worker hh,JobRun.answer,hstage,readEstimate_reverted hm]
    exact Function.update_self ..
  failed w h hh hstage call hcall j hj hq := by
    obtain ⟨d,hd⟩ := failUnbound_ends job s.store .simulationReverted
      ("gas estimation failed: " ++ ("execution reverted: " ++ r)) (data.bind revertBytes) call
    have hon : onward c (pair w) job s.now s.store h.stage (.failed call) =
        (.ends d,(failUnbound job s.store .simulationReverted ("gas estimation failed: " ++
          ("execution reverted: " ++ r)) (data.bind revertBytes) call).2) := by
      rw [hstage,← hd]
      rfl
    rw [step_of_worker hh,JobRun.answer,hon]
    exact failUnbound_fails hcall hj hq
  never w x hx := by
    rw [backoff]
    cases hw : s.worker w with
    | none => simp
    | some h =>
      obtain ⟨stage,hgo,-⟩ | ⟨hone,d,hend⟩ :=
        onward_reverting job hm (pair w) s.now s.store hx.read (hs w h hw)
      · simp only [hgo]
        simp
      · simp only [hend,hone]
        split <;> simp

end JobRun

/-- For every revert: the adapter does not take it for missing funds, and however often the job is
picked it fails as reverting and is not given back without backoff, exactly when the contract's own
words are not those for missing funds. -/
theorem revert_fails_job_iff {S : Type} [DecidableEq S] (u : CaseData) (c : ProcessConfig)
    (pair : S → PairKey) (job : QueuedJob) (hg : job.request.gasLimit = none) (code : Int)
    (r : String) (data : Option String) :
    (c.kind.estimateLacksFunds u (reverted code r data) = false ∧
      ∀ now store t, ((JobRun.machine c pair job).restrict
        (JobRun.Estimates u c.kind (reverted code r data))).Reaches (.start now store) t →
          t.Fails u c pair job code r data) ↔ ¬c.kind.Mentions u r data := by
  constructor
  · rintro ⟨hfalse,-⟩ hm
    rw [estimateLacksFunds_reverted.2 hm] at hfalse
    exact Bool.noConfusion hfalse
  · intro hm
    refine ⟨Bool.eq_false_iff.2 (mt estimateLacksFunds_reverted.1 hm),fun now store t ht => ?_⟩
    refine JobRun.Reverting.fails hm (ht.invariant ?_ fun s e hs he => hs.step hg hm he.2)
    exact fun w h hh => absurd hh (by simp [JobRun.start])

/-- A call whose gas is to be estimated. -/
def estimatedJob : QueuedJob := ⟨1,{ Sample.request with gasLimit := none }⟩

def estimatedStore : Store := (Op.insertJob 1 estimatedJob.request).apply Store.empty

/-- An ordinary reason. -/
theorem revert_fails_job_paused :
    estimatedJob.request.gasLimit = none ∧
      ¬AdapterKind.Mentions .ascii urgentConfig.kind "Pausable: paused" (some "0x08c379a0") ∧
      ∀ t, ((JobRun.machine urgentConfig (fun _ : Unit => Sample.pair) estimatedJob).restrict
        (JobRun.Estimates .ascii urgentConfig.kind
          (reverted 3 "Pausable: paused" (some "0x08c379a0")))).Reaches
            (.start 0 estimatedStore) t →
              t.Fails .ascii urgentConfig (fun _ => Sample.pair) estimatedJob 3 "Pausable: paused"
                (some "0x08c379a0") := by
  have hm : ¬AdapterKind.Mentions .ascii urgentConfig.kind "Pausable: paused"
      (some "0x08c379a0") := by
    decide +kernel
  exact ⟨rfl,hm,((revert_fails_job_iff .ascii urgentConfig (fun _ => Sample.pair) estimatedJob rfl 3
    "Pausable: paused" (some "0x08c379a0")).2 hm).2 0 estimatedStore⟩

/-- A worker that has been told to look for funds. -/
def lookingForFunds : List (JobEvent Unit) := [.handle (),.answer () (.estimated .lacksFunds)]

/-- A contract that reverts with the words of the node: the job is handed back at once. -/
theorem insufficient_funds_reason_requeues :
    AdapterKind.geth.estimateLacksFunds .ascii (reverted 3 "ERC20: Insufficient funds" none) = true ∧
    ∃ t, ((JobRun.machine urgentConfig (fun _ : Unit => Sample.pair) estimatedJob).restrict
        (JobRun.Estimates .ascii .geth (reverted 3 "ERC20: Insufficient funds" none))).Reaches
          (.start 0 estimatedStore) t ∧
      t.backoff urgentConfig (fun _ => Sample.pair) estimatedJob () .funded = some 0 ∧
      ¬t.Fails .ascii urgentConfig (fun _ => Sample.pair) estimatedJob 3
        "ERC20: Insufficient funds" none := by
  have hm : AdapterKind.Mentions .ascii .geth "ERC20: Insufficient funds" none := by
    decide +kernel
  have hread : .lacksFunds = readEstimate .ascii .geth
      (.error (reverted 3 "ERC20: Insufficient funds" none)) :=
    (JobRun.readEstimate_mentions hm).symm
  have hrun : ((JobRun.machine urgentConfig (fun _ : Unit => Sample.pair) estimatedJob).restrict
      (JobRun.Estimates .ascii .geth (reverted 3 "ERC20: Insufficient funds" none))).Runs
        (.start 0 estimatedStore) lookingForFunds :=
    ⟨⟨rfl,trivial⟩,⟨trivial,hread⟩,trivial⟩
  have hback : JobRun.backoff urgentConfig (fun _ : Unit => Sample.pair) estimatedJob
      (lookingForFunds.foldl (JobRun.step urgentConfig (fun _ => Sample.pair) estimatedJob)
        (.start 0 estimatedStore)) () .funded = some 0 := by
    decide +kernel
  exact ⟨estimateLacksFunds_reverted.2 hm,_,hrun.reaches,hback,
    fun hf => hf.never () .funded trivial hback⟩

end GumEngine
