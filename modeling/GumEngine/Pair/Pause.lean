import GumEngine.Confirm.Engine

/-!
# Pausing a pair

`Pair::pause` and `Pair::resume_if` of `engine.rs`, the operator's requests of `api.rs` and
`record_pause` of `store/misc.rs`. One slot shows why a pair is paused; automatic pauses
overwrite it, so a flag beside it remembers the operator. Every change is written to the
pair's row by a task of its own.
-/

namespace GumEngine
open Transition

/-- `Pause`: what the slot of a pair shows. -/
structure PauseSlot where
  reason : PauseReason
  recoveryStep : RecoveryStep
  since : Nat
  detail : String
deriving DecidableEq, Repr

/-- The part of a pair's state that decides whether its worker takes a job. -/
structure PairState where
  pause : Option PauseSlot
  manualPause : Bool
  recoveryRequested : Bool
  draining : Bool
deriving DecidableEq, Repr

/-- What a task spawned by `persist_pause` writes. -/
structure PauseWrite where
  pause : Option PauseSlot
  manual : Bool
deriving DecidableEq, Repr

namespace PairState

/-- `Pair::new`; `manualPause` is loaded from the store. -/
def new (now : Nat) (manualPause : Bool) : PairState where
  pause := some ⟨.booting,.reconcilingNonce,now,"loading state and reconciling with the chain"⟩
  manualPause := manualPause
  recoveryRequested := true
  draining := false

def isPaused (s : PairState) : Bool := s.pause.isSome

def pauseReason (s : PairState) : Option PauseReason := s.pause.map (·.reason)

/-- The reason differs from the one shown. -/
def changes (s : PairState) (reason : PauseReason) : Bool := s.pauseReason ≠ some reason

/-- Pauses the pair, or updates what is being done about an existing pause. -/
def setPause (s : PairState) (now : Nat) (reason : PauseReason) (step : RecoveryStep)
    (detail : String) : PairState :=
  let since := if s.changes reason then now else s.pause.elim now (·.since)
  { s with
    pause := some ⟨reason,step,since,detail⟩
    manualPause := s.manualPause || reason = .manual }

/-- What `pause` persists. -/
def pauseWrite (s : PairState) (now : Nat) (reason : PauseReason) (step : RecoveryStep)
    (detail : String) : PauseWrite :=
  let s := s.setPause now reason step detail
  ⟨s.pause,s.manualPause⟩

/-- Clears a pause, but only if it still has the given reason. An operator's pause outlives
whatever automatic pause was layered on top of it. -/
def resumeIf (s : PairState) (now : Nat) (reason : PauseReason) : PairState :=
  if s.changes reason then s else
  let manual := s.manualPause && reason ≠ .manual
  { s with
    pause := if manual then some ⟨.manual,.awaitingOperatorResume,now,"paused by operator"⟩ else none
    manualPause := manual }

/-- What `resume_if` persists; it answers `true` exactly when it does. -/
def resumeWrite (s : PairState) (reason : PauseReason) : Option PauseWrite :=
  if s.changes reason || s.manualPause && reason ≠ .manual then none else some ⟨none,false⟩

def requestRecovery (s : PairState) : PairState := { s with recoveryRequested := true }

end PairState

/-- The flags of the pair that settling and recovery look at. -/
def PairState.flags (s : PairState) : Pair :=
  ⟨s.pause.map fun p => ⟨p.reason,p.recoveryStep⟩,s.manualPause,s.recoveryRequested⟩

theorem PairState.new_flags (now : Nat) (manualPause : Bool) :
    (new now manualPause).flags = Pair.new manualPause := rfl

theorem PairState.setPause_flags (s : PairState) (now : Nat) {reason : PauseReason}
    (hr : reason ≠ .manual) (step : RecoveryStep) (detail : String) :
    (s.setPause now reason step detail).flags = s.flags.pauseFor reason step := by
  simp [flags,setPause,Pair.pauseFor,hr]

theorem PairState.resumeIf_flags (s : PairState) (now : Nat) (reason : PauseReason) :
    (s.resumeIf now reason).flags = s.flags.resumeIf reason := by
  have hreason : s.flags.pause.map Pause.reason = s.pauseReason := by
    simp only [flags,pauseReason,Option.map_map]
    rfl
  unfold resumeIf Pair.resumeIf
  rw [hreason]
  by_cases hc : s.pauseReason = some reason
  · rw [if_neg (by simpa [changes] using hc),if_pos hc]
    by_cases hr : reason = .manual <;> cases hm : s.manualPause <;> simp [flags,hm,hr]
  · rw [if_pos (by simpa [changes] using hc),if_neg hc]

/-- The calls on a pair, each one section under its lock. -/
inductive PauseCall
  | operatorPause (now : Nat)
  | operatorResume (now : Nat)
  | pause (now : Nat) (reason : PauseReason) (step : RecoveryStep) (detail : String)
  | resumeIf (now : Nat) (reason : PauseReason)
deriving DecidableEq, Repr

/-- The action `resume` of `admin_pair` is `operatorResume` and then a `resumeIf` for each of
`stuckUnresolved`, `nonceDrift` and `signerUnavailable`. -/
def PauseCall.apply (s : PairState) : PauseCall → PairState
  | operatorPause now => s.setPause now .manual .awaitingOperatorResume "paused by operator"
  | operatorResume now => s.resumeIf now .manual
  | pause now reason step detail => s.setPause now reason step detail
  | resumeIf now reason => s.resumeIf now reason

def PauseCall.write (s : PairState) : PauseCall → Option PauseWrite
  | operatorPause now =>
    some (s.pauseWrite now .manual .awaitingOperatorResume "paused by operator")
  | operatorResume _ => s.resumeWrite .manual
  | pause now reason step detail => some (s.pauseWrite now reason step detail)
  | resumeIf _ reason => s.resumeWrite reason

/-! ## As settling and recovery see it -/

def PauseCall.Automatic : PauseCall → Prop
  | operatorPause _ | operatorResume _ => False
  | pause _ reason _ _ => reason ≠ .manual
  | resumeIf _ _ => True

/-- What an automatic call does to the flags. -/
def PauseCall.onFlags (q : Pair) : PauseCall → Pair
  | pause _ reason step _ => q.pauseFor reason step
  | resumeIf _ reason => q.resumeIf reason
  | _ => q

theorem PauseCall.apply_flags {c : PauseCall} (hc : c.Automatic) (s : PairState) :
    (c.apply s).flags = c.onFlags s.flags := by
  cases c with
  | operatorPause now => exact hc.elim
  | operatorResume now => exact hc.elim
  | pause now reason step detail => exact s.setPause_flags now hc step detail
  | resumeIf now reason => exact s.resumeIf_flags now reason

/-- As long as the operator does not call, the pair that settling and recovery act on is the
flags of this one. -/
theorem flags_foldl (now : Nat) (loaded : Bool) {calls : List PauseCall}
    (h : ∀ c ∈ calls, c.Automatic) :
    (calls.foldl PauseCall.apply (.new now loaded)).flags =
      calls.foldl PauseCall.onFlags (Pair.new loaded) := by
  rw [← PairState.new_flags now]
  generalize PairState.new now loaded = s
  induction calls generalizing s with
  | nil => rfl
  | cons c calls ih =>
    rw [List.forall_mem_cons] at h
    rw [List.foldl_cons,List.foldl_cons,ih h.2,PauseCall.apply_flags h.1]

/-! ## The operator's will -/

/-- A pair, with what the operator asked for last. -/
structure Operated where
  pair : PairState
  wanted : Bool
deriving DecidableEq

def PauseCall.will (before : Bool) : PauseCall → Bool
  | operatorPause _ => true
  | operatorResume _ => false
  | _ => before

def operated : Machine Operated PauseCall where
  allowed _ _ := True
  step s c := ⟨c.apply s.pair,c.will s.wanted⟩

def Operated.init (now : Nat) (loaded : Bool) : Operated := ⟨.new now loaded,loaded⟩

/-- The flag is what the operator asked for last, and a flagged pair is paused. -/
structure Heeds (s : Operated) : Prop where
  flag : s.pair.manualPause = s.wanted
  paused : s.pair.manualPause = true → s.pair.isPaused = true

/-- A resume of the operator finds its own pause in the slot, or no flag; and no automatic
call names the operator's reason where that changes the flag. -/
def PauseCall.Due (s : Operated) : PauseCall → Prop
  | operatorPause _ => True
  | operatorResume _ => s.pair.manualPause = true → s.pair.pauseReason = some .manual
  | pause _ reason _ _ => reason = .manual → s.pair.manualPause = true
  | resumeIf _ reason => reason = .manual → s.pair.manualPause = true →
      s.pair.pauseReason ≠ some .manual

instance (s : Operated) : DecidablePred (PauseCall.Due s)
  | .operatorPause _ => .isTrue trivial
  | .operatorResume _ =>
    inferInstanceAs (Decidable (s.pair.manualPause = true → s.pair.pauseReason = some .manual))
  | .pause _ reason _ _ =>
    inferInstanceAs (Decidable (reason = .manual → s.pair.manualPause = true))
  | .resumeIf _ reason => inferInstanceAs (Decidable (reason = .manual →
      s.pair.manualPause = true → s.pair.pauseReason ≠ some .manual))

section Flag

variable {s : PairState} {now : Nat} {reason : PauseReason}

/-- The flag after a resume. -/
theorem PairState.resumeIf_manual (s : PairState) (now : Nat) (reason : PauseReason) :
    (s.resumeIf now reason).manualPause =
      (s.manualPause && !decide (reason = .manual ∧ s.pauseReason = some .manual)) := by
  unfold resumeIf
  by_cases hc : s.pauseReason = some reason
  · rw [if_neg (by simpa [changes] using hc),hc]
    by_cases hr : reason = .manual <;> simp [hr]
  · rw [if_pos (by simpa [changes] using hc)]
    by_cases hr : reason = .manual
    · subst hr
      simp [hc]
    · simp [hr]

/-- A resume leaves a flagged pair paused. -/
theorem PairState.resumeIf_paused (h : s.manualPause = true → s.isPaused = true) :
    (s.resumeIf now reason).manualPause = true → (s.resumeIf now reason).isPaused = true := by
  unfold resumeIf
  split
  · exact h
  · intro hm
    dsimp only at hm ⊢
    simp only [isPaused,hm,if_true,Option.isSome_some]

end Flag

/-- One call keeps the operator's will exactly when it is due. -/
theorem Heeds.step_iff {s : Operated} (h : Heeds s) (c : PauseCall) :
    Heeds (operated.step s c) ↔ c.Due s := by
  have hp : (c.apply s.pair).manualPause = true → (c.apply s.pair).isPaused = true := by
    cases c with
    | operatorPause now => exact fun _ => rfl
    | operatorResume now => exact PairState.resumeIf_paused h.paused
    | pause now reason step detail => exact fun _ => rfl
    | resumeIf now reason => exact PairState.resumeIf_paused h.paused
  have hflag : (c.apply s.pair).manualPause = c.will s.wanted ↔ c.Due s := by
    rw [← h.flag]
    cases c with
    | operatorPause now => simp [PauseCall.apply,PairState.setPause,PauseCall.will,PauseCall.Due]
    | operatorResume now =>
      show (s.pair.resumeIf now .manual).manualPause = false ↔ _
      rw [PairState.resumeIf_manual]
      cases hm : s.pair.manualPause <;> simp [PauseCall.Due,hm]
    | pause now reason step detail =>
      show (s.pair.manualPause || decide (reason = .manual)) = s.pair.manualPause ↔ _
      cases hm : s.pair.manualPause <;> simp [PauseCall.Due,hm]
    | resumeIf now reason =>
      show (s.pair.resumeIf now reason).manualPause = s.pair.manualPause ↔ _
      rw [PairState.resumeIf_manual]
      cases hm : s.pair.manualPause
      · simp [PauseCall.Due,hm]
      · simp only [PauseCall.Due,hm,Bool.true_and,Bool.not_eq_true',decide_eq_false_iff_not,
          not_and,forall_const]
  exact ⟨fun hs => hflag.mp hs.flag,fun hd => ⟨hflag.mpr hd,hp⟩⟩

theorem Heeds.init (now : Nat) (loaded : Bool) : Heeds (Operated.init now loaded) :=
  ⟨rfl,fun _ => rfl⟩

/-- A state and those a run of calls leads to. -/
theorem heeds_run_iff {s : Operated} (h : Heeds s) (calls : List PauseCall) :
    (∀ pre, pre <+: calls → Heeds (pre.foldl operated.step s)) ↔
      (operated.restrict fun s c => c.Due s).Runs s calls := by
  induction calls generalizing s with
  | nil =>
    refine ⟨fun _ => trivial,fun _ pre hpre => ?_⟩
    rw [List.prefix_nil.mp hpre]
    exact h
  | cons c calls ih =>
    constructor
    · intro hall
      have hs : Heeds (operated.step s c) :=
        hall [c] ⟨calls,rfl⟩
      refine ⟨⟨trivial,(h.step_iff c).mp hs⟩,(ih hs).mp fun pre hpre => ?_⟩
      exact hall (c :: pre) (List.prefix_cons_inj c |>.mpr hpre)
    · rintro ⟨⟨-,hdue⟩,hruns⟩ pre hpre
      have hs := (h.step_iff c).mpr hdue
      cases pre with
      | nil => exact h
      | cons c' pre =>
        obtain ⟨rfl,htail⟩ := List.cons_prefix_cons.mp hpre
        exact (ih hs).mpr hruns pre htail

/-- The operator's last word stands after every call exactly in the runs whose calls are due. -/
theorem operator_heeded_iff (now : Nat) (loaded : Bool) (calls : List PauseCall) :
    (∀ pre, pre <+: calls → Heeds (pre.foldl operated.step (Operated.init now loaded))) ↔
      (operated.restrict fun s c => c.Due s).Runs (Operated.init now loaded) calls :=
  heeds_run_iff (Heeds.init now loaded) calls

/-- The resume finds the pause of a reorg in the slot: the flag stays, and once the reorg is
over it pauses the pair again. -/
theorem operator_resume_lost :
    ¬ Heeds ([PauseCall.resumeIf 1 .booting,.operatorPause 2,
      .pause 3 .reorg .reconcilingNonce "inclusion demoted",.operatorResume 4,
      .resumeIf 4 .stuckUnresolved,.resumeIf 4 .nonceDrift,.resumeIf 4 .signerUnavailable,
      .resumeIf 5 .reorg].foldl operated.step (Operated.init 0 false)) := by
  intro h
  exact absurd h.flag (by decide)

/-! ## The stored flag -/

/-- `record_pause`: the columns of the row are the snapshot the task took. -/
def recordPause (_row write : PauseWrite) : PauseWrite := write

/-- The tasks a run of calls spawns, in the order of the calls. -/
def spawned (s : PairState) : List PauseCall → List PauseWrite
  | [] => []
  | c :: calls => (c.write s).toList ++ spawned (c.apply s) calls

/-- The flag a run of writes leaves, over the one before it. -/
def lastFlag (flag : Bool) (writes : List PauseWrite) : Bool :=
  (writes.getLast?.map (·.manual)).getD flag

theorem recordPause_manual (row : PauseWrite) (writes : List PauseWrite) :
    (writes.foldl recordPause row).manual = lastFlag row.manual writes := by
  induction writes generalizing row with
  | nil => rfl
  | cons w writes ih =>
    rw [List.foldl_cons,ih,recordPause]
    cases writes with
    | nil => rfl
    | cons w' writes => simp [lastFlag,List.getLast?_cons]

/-- A call that spawns no task leaves the flag. -/
theorem PauseCall.apply_manual (c : PauseCall) (s : PairState) :
    (c.apply s).manualPause = lastFlag s.manualPause (c.write s).toList := by
  have hresume (now reason) : (s.resumeIf now reason).manualPause =
      lastFlag s.manualPause (s.resumeWrite reason).toList := by
    rw [PairState.resumeIf_manual,PairState.resumeWrite]
    by_cases hc : s.pauseReason = some reason
    · cases hm : s.manualPause <;> by_cases hr : reason = .manual <;>
        simp [lastFlag,PairState.changes,hc,hr]
    · -- Another reason is in the slot: nothing happens.
      have hn : ¬ (reason = .manual ∧ s.pauseReason = some .manual) := fun h => hc (h.1 ▸ h.2)
      simp [lastFlag,PairState.changes,hc,hn]
  cases c with
  | operatorPause now => rfl
  | operatorResume now => exact hresume now .manual
  | pause now reason step detail => rfl
  | resumeIf now reason => exact hresume now reason

theorem lastFlag_append (flag : Bool) (ws ws' : List PauseWrite) :
    lastFlag flag (ws ++ ws') = lastFlag (lastFlag flag ws) ws' := by
  cases ws' using List.reverseRecOn with
  | nil => simp [lastFlag]
  | append_singleton ws' w => simp [lastFlag,List.getLast?_append]

/-- In memory the flag is that of the task spawned last. -/
theorem apply_foldl_manual (s : PairState) (calls : List PauseCall) :
    (calls.foldl PauseCall.apply s).manualPause = lastFlag s.manualPause (spawned s calls) := by
  induction calls generalizing s with
  | nil => rfl
  | cons c calls ih =>
    rw [List.foldl_cons,ih,c.apply_manual,spawned,lastFlag_append]

/-- Once every task has committed, the store agrees with memory exactly when the task that
committed last carries the flag of the one spawned last. -/
theorem stored_pause_iff (now : Nat) (row : PauseWrite) (calls : List PauseCall)
    (order : List PauseWrite) (h : order.Perm (spawned (.new now row.manual) calls)) :
    (order.foldl recordPause row).manual =
        (calls.foldl PauseCall.apply (.new now row.manual)).manualPause ↔
      order.getLast?.map (·.manual) =
        (spawned (.new now row.manual) calls).getLast?.map (·.manual) := by
  rw [recordPause_manual,apply_foldl_manual]
  show lastFlag row.manual order = lastFlag row.manual (spawned _ calls) ↔ _
  rcases order.eq_nil_or_concat with rfl | ⟨order,w,rfl⟩
  · rw [h.symm.eq_nil]
    simp
  · rcases (spawned (.new now row.manual) calls).eq_nil_or_concat with hs | ⟨ws,w',hs⟩
    · rw [hs] at h
      simp at h
    · rw [hs]
      simp [lastFlag]

/-- So it is enough that no call after the one whose write commits last changes the flag. -/
theorem stored_pause_of_kept (now : Nat) (row : PauseWrite) {pre post : List PauseCall}
    {c : PauseCall} {order : List PauseWrite} {w : PauseWrite}
    (hw : c.write (pre.foldl PauseCall.apply (.new now row.manual)) = some w)
    (hlast : order.getLast? = some w)
    (hkept : ((pre ++ c :: post).foldl PauseCall.apply (.new now row.manual)).manualPause =
      ((pre ++ [c]).foldl PauseCall.apply (.new now row.manual)).manualPause) :
    (order.foldl recordPause row).manual =
      ((pre ++ c :: post).foldl PauseCall.apply (.new now row.manual)).manualPause := by
  -- The call leaves the flag it writes, whatever the flag was before.
  have hc : ((pre ++ [c]).foldl PauseCall.apply (.new now row.manual)).manualPause = w.manual := by
    rw [List.foldl_append,List.foldl_cons,List.foldl_nil,c.apply_manual,hw]
    rfl
  rw [hkept,hc,recordPause_manual,lastFlag,hlast]
  rfl

/-- Writes that commit in the order of the calls keep the two together. -/
example (now : Nat) (row : PauseWrite) (calls : List PauseCall) :
    ((spawned (.new now row.manual) calls).foldl recordPause row).manual =
      (calls.foldl PauseCall.apply (.new now row.manual)).manualPause := by
  rw [recordPause_manual,apply_foldl_manual]
  rfl

/-- The operator pauses a pair and resumes it at once; the first write commits last. -/
def overtaken : List PauseWrite := (spawned (.new 0 false) [.operatorPause 1,.operatorResume 2]).reverse

theorem stored_pause_overtaken :
    overtaken.Perm (spawned (.new 0 false) [.operatorPause 1,.operatorResume 2]) ∧
      (overtaken.foldl recordPause ⟨none,false⟩).manual = true ∧
      ([PauseCall.operatorPause 1,.operatorResume 2].foldl PauseCall.apply
        (.new 0 false)).manualPause = false :=
  ⟨List.reverse_perm _,by decide,by decide⟩

theorem stored_pause_iff_overtaken :
    (overtaken.foldl recordPause ⟨none,false⟩).manual =
        ([PauseCall.operatorPause 1,.operatorResume 2].foldl PauseCall.apply
          (.new 0 false)).manualPause ↔
      overtaken.getLast?.map (·.manual) =
        (spawned (.new 0 false) [.operatorPause 1,.operatorResume 2]).getLast?.map (·.manual) :=
  stored_pause_iff 0 ⟨none,false⟩ [.operatorPause 1,.operatorResume 2] overtaken
    (List.reverse_perm _)

end GumEngine
