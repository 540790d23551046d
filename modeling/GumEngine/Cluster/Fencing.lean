import GumEngine.Store.Ops

/-!
# Fencing across leaders

`bind_attempt` and `void_binding` read the lease epoch `FOR SHARE`, write, and commit; a
new leader's `UPDATE lease_epoch` waits for outstanding share locks. Any number of
instances run such transactions step by step, also those that lost leadership and do
not know it.
-/

namespace GumEngine
open Relational Transition

/-- The two transactions behind the epoch gate. -/
inductive Body
  | bind (a : Attempt) (kind : BindKind)
  | void (a : Attempt) (mode : VoidMode) (disposition : VoidDisposition) (now : Nat)
deriving DecidableEq

/-- The transaction run at once. -/
def Body.run (s : Store) (epoch : Int) : Body → Except StoreError Store
  | bind a kind => bindAttempt s epoch a kind
  | void a mode disposition now => voidBinding s epoch a mode disposition now

/-- Its statements behind the gate, whatever epoch the gate was passed with. -/
def Body.writes (s : Store) (b : Body) : Except StoreError Store := b.run s s.leaseEpoch

inductive Phase
  | begun | locked | wrote | ended
deriving DecidableEq

structure Txn where
  id : Nat
  epoch : Int
  body : Body
  phase : Phase
deriving DecidableEq

/-- The share lock is held from the read of the epoch to the end of the transaction. -/
def Txn.sharing (t : Txn) : Prop := t.phase = .locked ∨ t.phase = .wrote

instance (t : Txn) : Decidable t.sharing :=
  inferInstanceAs (Decidable (t.phase = .locked ∨ t.phase = .wrote))

structure Commit where
  epoch : Int
  body : Body
deriving DecidableEq

/-- The database, the epoch each instance believes to hold, the transactions in flight,
and what was committed behind the gate, newest first. -/
structure Cluster where
  store : Store
  held : Nat → Option Int
  txns : List Txn
  log : List Commit

inductive ClusterEvent
  | start (i : Nat) (body : Body)
  | lock (n : Nat)
  | write (n : Nat)
  | commit (n : Nat)
  | abort (n : Nat)
  | acquire (i : Nat) (answered : Bool)
  | other (op : Op)
deriving DecidableEq

namespace Cluster

def init : Cluster := ⟨Store.empty,fun _ => none,[],[]⟩

def txn (w : Cluster) (n : Nat) (p : Phase) : Option Txn :=
  w.txns.find? fun t => t.id = n && t.phase = p

def setPhase (w : Cluster) (t : Txn) (p : Phase) : Cluster :=
  { w with txns := w.txns.map (rewrite (fun x => x = t) fun x => { x with phase := p }) }

/-- An instance starts a transaction with the epoch it believes to hold. The epoch is
read once, under the lock; the writes take place at the commit. -/
def step (w : Cluster) : ClusterEvent → Cluster
  | .start i body =>
    match w.held i with
    | none => w
    | some e => { w with txns := w.txns ++ [⟨w.txns.length,e,body,.begun⟩] }
  | .lock n =>
    match w.txn n .begun with
    | none => w
    | some t => w.setPhase t (if w.store.leaseEpoch = t.epoch then .locked else .ended)
  | .write n =>
    match w.txn n .locked with
    | none => w
    | some t => w.setPhase t (if (t.body.writes w.store).isOk then .wrote else .ended)
  | .commit n =>
    match w.txn n .wrote with
    | none => w
    | some t =>
      match t.body.writes w.store with
      | .error _ => w.setPhase t .ended
      | .ok s => { w.setPhase t .ended with
          store := s
          log := ⟨t.epoch,t.body⟩ :: w.log }
  | .abort n =>
    match w.txns.find? fun t => t.id = n with
    | none => w
    | some t => w.setPhase t .ended
  | .acquire i answered =>
    let epoch := w.store.leaseEpoch + 1
    { w with
      store := { w.store with leaseEpoch := epoch }
      held := if answered then Function.update w.held i (some epoch) else w.held }
  | .other op => { w with store := op.apply w.store }

end Cluster

/-- The epoch update waits for share locks; other transactions have no gate. -/
def ClusterEvent.Possible (w : Cluster) : ClusterEvent → Prop
  | .acquire _ _ => ∀ t ∈ w.txns, ¬ t.sharing
  | .other op => op.Unfenced = true
  | _ => True

instance (w : Cluster) : DecidablePred (ClusterEvent.Possible w)
  | .acquire _ _ => inferInstanceAs (Decidable (∀ t ∈ w.txns, ¬ t.sharing))
  | .other op => inferInstanceAs (Decidable (op.Unfenced = true))
  | .start _ _ | .lock _ | .write _ | .commit _ | .abort _ => .isTrue trivial

def cluster : Machine Cluster ClusterEvent where
  allowed w e := e.Possible w
  step := Cluster.step

instance (w : Cluster) (e : ClusterEvent) : Decidable (cluster.allowed w e) :=
  inferInstanceAs (Decidable (e.Possible w))

/-- A committed void that gave the nonce back. -/
def Commit.Releases (c : Commit) (k : Slot) : Prop :=
  ∃ a disposition now, c.body = .void a .nonceUnused disposition now ∧ a.slot = k

/-- The owner the log leaves a slot with. -/
def lastOwner : List Commit → Slot → Option Uuid
  | [],_ => none
  | c :: l,k =>
    match c.body with
    | .bind a _ => if a.slot = k then some a.owner.id else lastOwner l k
    | .void a mode _ _ => if a.slot = k ∧ mode = .nonceUnused then none else lastOwner l k

/-- Every bind of the log found its slot free or its own. -/
def BoundFairly : List Commit → Prop
  | [] => True
  | c :: l => BoundFairly l ∧ ∀ a kind, c.body = .bind a kind →
    ∀ o, lastOwner l a.slot = some o → o = a.owner.id

/-- A slot keeps its owner until it is released. -/
theorem lastOwner_of_bound {l : List Commit} (hl : BoundFairly l) {l₁ l₂ : List Commit}
    {c : Commit} {a : Attempt} {kind : BindKind} (h : l = l₁ ++ c :: l₂)
    (hc : c.body = .bind a kind) (hno : ∀ d ∈ l₁, ¬ d.Releases a.slot) :
    lastOwner l a.slot = some a.owner.id := by
  induction l₁ generalizing l with
  | nil =>
    subst h
    simp [lastOwner,hc]
  | cons d l₁ ih =>
    subst h
    have ihl := ih hl.1 rfl fun x hx => hno x (List.mem_cons_of_mem _ hx)
    rw [List.cons_append,lastOwner]
    cases hd : d.body with
    | bind b kb =>
      by_cases hs : b.slot = a.slot
      · -- a later bind of the slot was fair, so it is the same owner's
        have := hl.2 b kb hd a.owner.id (by rw [hs]; exact ihl)
        simp [hs,this]
      · simpa [hs] using ihl
    | void b mode disposition now =>
      have hrel : ¬ (b.slot = a.slot ∧ mode = .nonceUnused) := by
        rintro ⟨hs,rfl⟩
        exact hno d List.mem_cons_self ⟨b,disposition,now,hd,hs⟩
      simpa [hrel] using ihl

section Rows

variable {s s' : Store}

/-- No row is lost and every row keeps its immutable columns. -/
def Persists (s s' : Store) : Prop := ∀ r ∈ s.txAttempts.rows, ∃ r' ∈ s'.txAttempts.rows, r'.Same r

theorem persists_of_map {F : AttemptRow → AttemptRow} (hF : ∀ r, (F r).Same r)
    (h : s'.txAttempts.rows = s.txAttempts.rows.map F) : Persists s s' := by
  intro r hr
  exact ⟨F r,by rw [h]; exact List.mem_map_of_mem hr,hF r⟩

def Owned (s : Store) : Prop := ∀ r ∈ s.txAttempts.rows, r.owner.isSome = true

theorem owned_of_map {F : AttemptRow → AttemptRow} (hF : ∀ r, (F r).Same r)
    (h : s'.txAttempts.rows = s.txAttempts.rows.map F) (ho : Owned s) : Owned s' := by
  intro x hx
  rw [h] at hx
  obtain ⟨r,hr,rfl⟩ := List.mem_map.mp hx
  rw [(hF r).owner]
  exact ho r hr

theorem Bound.persists {epoch : Int} {a : Attempt} {kind : BindKind}
    (h : Bound s epoch a kind s') : Persists s s' := by
  intro r hr
  exact ⟨r,by rw [h.attempts]; exact List.mem_append_left _ hr,.rfl' r⟩

theorem Bound.owned {epoch : Int} {a : Attempt} {kind : BindKind}
    (h : Bound s epoch a kind s') (ho : Owned s) : Owned s' := by
  intro x hx
  rw [h.attempts] at hx
  rcases List.mem_append.mp hx with hx | hx
  · exact ho x hx
  · rw [List.mem_singleton.mp hx]
    unfold AttemptRow.owner AttemptRow.ofAttempt
    cases a.owner <;> rfl

end Rows

/-- The invariant of the cluster. `shared` is the lock discipline: whoever holds a share
lock read the epoch that is still current. -/
structure Fenced (w : Cluster) : Prop where
  held : ∀ i e, w.held i = some e → e ≤ w.store.leaseEpoch
  shared : ∀ t ∈ w.txns, t.sharing → t.epoch = w.store.leaseEpoch
  rows : ∀ c ∈ w.log, ∀ a kind, c.body = .bind a kind →
    ∃ r ∈ w.store.txAttempts.rows, r.id = a.id ∧ r.IsOf a
  owned : Owned w.store
  slots : ∀ k o, lastOwner w.log k = some o → w.store.slotOwnerId k = some o
  fair : BoundFairly w.log

section Steps

variable {w : Cluster}

theorem Cluster.txn_mem {n : Nat} {p : Phase} {t : Txn} (h : w.txn n p = some t) :
    t ∈ w.txns ∧ t.phase = p := by
  have hp := List.find?_some h
  simp only [Bool.and_eq_true,decide_eq_true_eq] at hp
  exact ⟨List.mem_of_find?_eq_some h,hp.2⟩

theorem Fenced.setPhase (h : Fenced w) {t : Txn} {p : Phase}
    (hp : p = .locked ∨ p = .wrote → t.epoch = w.store.leaseEpoch) : Fenced (w.setPhase t p) := by
  refine ⟨h.held,?_,h.rows,h.owned,h.slots,h.fair⟩
  intro x hx hsh
  obtain ⟨y,hy,rfl⟩ := List.mem_map.mp hx
  by_cases hyt : y = t
  · subst hyt
    rw [rewrite_of (by simp)] at hsh ⊢
    exact hp hsh
  · rw [rewrite_of_not (by simpa using hyt)] at hsh ⊢
    exact h.shared y hy hsh

/-- What is committed behind the gate is the whole transaction run at that moment. -/
theorem Fenced.commit_run (h : Fenced w) {n : Nat} {t : Txn} (ht : w.txn n .wrote = some t) :
    t.epoch = w.store.leaseEpoch ∧ t.body.writes w.store = t.body.run w.store t.epoch := by
  obtain ⟨hm,hp⟩ := Cluster.txn_mem ht
  have he := h.shared t hm (.inr hp)
  exact ⟨he,by rw [Body.writes,he]⟩

theorem Fenced.of_bound (h : Fenced w) {t : Txn} {s : Store} {a : Attempt} {kind : BindKind}
    (hb : t.body = .bind a kind) (hs : Bound w.store t.epoch a kind s) :
    Fenced { w with store := s, log := ⟨t.epoch,t.body⟩ :: w.log } := by
  obtain ⟨hnew,hkeep⟩ := claimSlot_owner hs.slots
  refine ⟨?_,?_,?_,hs.owned h.owned,?_,h.fair,?_⟩
  · intro i e hi
    rw [hs.epoch]
    exact h.held i e hi
  · intro x hx hsh
    rw [hs.epoch]
    exact h.shared x hx hsh
  · intro c hc b kb hcb
    rcases List.mem_cons.mp hc with rfl | hc
    · obtain ⟨rfl,-⟩ : b = a ∧ kb = kind := by simpa [hb] using hcb.symm
      exact ⟨.ofAttempt b,by rw [hs.attempts]; simp,rfl,AttemptRow.ofAttempt_isOf b⟩
    · obtain ⟨r,hr,hid,hof⟩ := h.rows c hc b kb hcb
      obtain ⟨r',hr',hsame⟩ := hs.persists r hr
      exact ⟨r',hr',hsame.id.trans hid,hsame.isOf hof⟩
  · intro k o ho
    rw [lastOwner,hb] at ho
    by_cases hk : a.slot = k
    · subst hk
      rw [hnew]
      simpa using ho
    · simp only [if_neg hk] at ho
      exact hkeep k o (h.slots k o ho)
  · intro b kb hcb o ho
    obtain ⟨rfl,-⟩ : b = a ∧ kb = kind := by simpa [hb] using hcb.symm
    have hold := hkeep _ _ (h.slots _ _ ho)
    rw [hnew] at hold
    exact (Option.some.inj hold).symm

theorem Fenced.of_voided (h : Fenced w) {t : Txn} {s : Store} {a : Attempt} {mode : VoidMode}
    {disposition : VoidDisposition} {now : Nat} (hb : t.body = .void a mode disposition now)
    (hs : Voids w.store t.epoch a mode disposition now s) :
    Fenced { w with store := s, log := ⟨t.epoch,t.body⟩ :: w.log } := by
  have hper := persists_of_map (dropRow_same a.slot) hs.attempts
  refine ⟨?_,?_,?_,owned_of_map (dropRow_same a.slot) hs.attempts h.owned,?_,h.fair,?_⟩
  · intro i e hi
    rw [hs.epoch]
    exact h.held i e hi
  · intro x hx hsh
    rw [hs.epoch]
    exact h.shared x hx hsh
  · intro c hc b kb hcb
    rcases List.mem_cons.mp hc with rfl | hc
    · simp [hb] at hcb
    · obtain ⟨r,hr,hid,hof⟩ := h.rows c hc b kb hcb
      obtain ⟨r',hr',hsame⟩ := hper r hr
      exact ⟨r',hr',hsame.id.trans hid,hsame.isOf hof⟩
  · intro k o ho
    rw [lastOwner,hb] at ho
    by_cases hk : a.slot = k ∧ mode = .nonceUnused
    · simp [hk] at ho
    · have hk' : k ≠ a.slot ∨ mode ≠ .nonceUnused := by
        by_contra hx
        push Not at hx
        exact hk ⟨hx.1.symm,hx.2⟩
      simp only [if_neg hk] at ho
      rw [hs.slotOwner hk']
      exact h.slots k o ho
  · intro b kb hcb
    simp [hb] at hcb

theorem Fenced.other (h : Fenced w) {op : Op} (hop : op.Unfenced = true) :
    Fenced { w with store := op.apply w.store } := by
  obtain ⟨⟨F,hF,hm⟩,hs,he⟩ := Op.unfenced_kept (s := w.store) hop
  refine ⟨?_,?_,?_,owned_of_map hF.same hm h.owned,?_,h.fair⟩
  · intro i e hi
    rw [he]
    exact h.held i e hi
  · intro x hx hsh
    rw [he]
    exact h.shared x hx hsh
  · intro c hc b kb hcb
    obtain ⟨r,hr,hid,hof⟩ := h.rows c hc b kb hcb
    obtain ⟨r',hr',hsame⟩ := persists_of_map hF.same hm r hr
    exact ⟨r',hr',hsame.id.trans hid,hsame.isOf hof⟩
  · intro k o ho
    rw [Store.slotOwnerId,hs]
    exact h.slots k o ho

/-- The bump waits for share locks, so no reader of the old epoch is left. -/
theorem Fenced.acquire (h : Fenced w) {i : Nat} {answered : Bool}
    (hno : ∀ t ∈ w.txns, ¬ t.sharing) : Fenced (w.step (.acquire i answered)) := by
  refine ⟨?_,fun t ht hsh => absurd hsh (hno t ht),h.rows,h.owned,h.slots,h.fair⟩
  intro j e hj
  show e ≤ w.store.leaseEpoch + 1
  have hold : ∀ e, w.held j = some e → e ≤ w.store.leaseEpoch + 1 := by
    intro e hj
    have := h.held j e hj
    omega
  unfold Cluster.step at hj
  cases answered with
  | false => exact hold e hj
  | true =>
    by_cases hij : j = i
    · subst hij
      simp at hj
      omega
    · simp only [if_true,Function.update_of_ne hij] at hj
      exact hold e hj

theorem Fenced.step (h : Fenced w) {e : ClusterEvent} (he : e.Possible w) :
    Fenced (w.step e) := by
  cases e with
  | start i body =>
    simp only [Cluster.step]
    cases hi : w.held i with
    | none => exact h
    | some ep =>
      refine ⟨h.held,?_,h.rows,h.owned,h.slots,h.fair⟩
      intro x hx hsh
      rcases List.mem_append.mp hx with hx | hx
      · exact h.shared x hx hsh
      · rw [List.mem_singleton.mp hx] at hsh
        simp [Txn.sharing] at hsh
  | lock n =>
    simp only [Cluster.step]
    cases ht : w.txn n .begun with
    | none => exact h
    | some t =>
      refine h.setPhase fun hp => ?_
      split at hp
      · next heq => exact heq.symm
      · simp at hp
  | write n =>
    simp only [Cluster.step]
    cases ht : w.txn n .locked with
    | none => exact h
    | some t =>
      obtain ⟨hm,hp⟩ := Cluster.txn_mem ht
      exact h.setPhase fun _ => h.shared t hm (.inl hp)
  | commit n =>
    simp only [Cluster.step]
    cases ht : w.txn n .wrote with
    | none => exact h
    | some t =>
      have hend : Fenced (w.setPhase t .ended) := h.setPhase (by simp)
      dsimp only
      rw [(h.commit_run ht).2]
      cases hrun : t.body.run w.store t.epoch with
      | error e => exact hend
      | ok s =>
        cases hb : t.body with
        | bind a kind =>
          rw [hb] at hrun
          have := hend.of_bound hb (bindAttempt_spec hrun)
          rwa [hb] at this
        | void a mode disposition now =>
          rw [hb] at hrun
          have := hend.of_voided hb (voidBinding_spec hrun)
          rwa [hb] at this
  | abort n =>
    simp only [Cluster.step]
    cases w.txns.find? fun t => t.id = n with
    | none => exact h
    | some t => exact h.setPhase (by simp)
  | acquire i answered => exact h.acquire he
  | other op => exact h.other he

/-- One step commits at most one transaction, under the current epoch, and the epoch
never falls. -/
theorem Fenced.step_log (h : Fenced w) {e : ClusterEvent} (he : e.Possible w) :
    w.store.leaseEpoch ≤ (w.step e).store.leaseEpoch ∧
      ((w.step e).log = w.log ∨
        ∃ c : Commit, (w.step e).log = c :: w.log ∧ c.epoch = w.store.leaseEpoch) := by
  cases e with
  | start i body =>
    simp only [Cluster.step]
    split <;> exact ⟨le_rfl,.inl rfl⟩
  | lock n =>
    simp only [Cluster.step]
    split <;> exact ⟨le_rfl,.inl rfl⟩
  | write n =>
    simp only [Cluster.step]
    split <;> exact ⟨le_rfl,.inl rfl⟩
  | commit n =>
    simp only [Cluster.step]
    cases ht : w.txn n .wrote with
    | none => exact ⟨le_rfl,.inl rfl⟩
    | some t =>
      obtain ⟨hep,hrun⟩ := h.commit_run ht
      dsimp only
      rw [hrun]
      cases hr : t.body.run w.store t.epoch with
      | error e => exact ⟨le_rfl,.inl rfl⟩
      | ok s =>
        refine ⟨?_,.inr ⟨⟨t.epoch,t.body⟩,rfl,hep⟩⟩
        cases hb : t.body with
        | bind a kind =>
          rw [hb] at hr
          exact (bindAttempt_spec hr).epoch.ge
        | void a mode disposition now =>
          rw [hb] at hr
          exact (voidBinding_spec hr).epoch.ge
  | abort n =>
    simp only [Cluster.step]
    split <;> exact ⟨le_rfl,.inl rfl⟩
  | acquire i answered => exact ⟨Int.le_add_of_nonneg_right (by decide),.inl rfl⟩
  | other op => exact ⟨(Op.unfenced_kept he).epoch.ge,.inl rfl⟩

theorem Fenced.init : Fenced Cluster.init := by
  refine ⟨?_,?_,?_,?_,?_,trivial⟩
  · intro i e h; cases h
  · intro t h; cases h
  · intro c h; cases h
  · intro r h; cases h
  · intro k o h; cases h

/-- From a state in which epoch `e` was reached, only epochs from `e` on commit. -/
theorem Fenced.run_log {w w' : Cluster} {e : Int} (h : Fenced w) (he : e ≤ w.store.leaseEpoch)
    (hr : cluster.Reaches w w') :
    Fenced w' ∧ ∃ new, w'.log = new ++ w.log ∧ ∀ c ∈ new, e ≤ c.epoch := by
  have hinv : Fenced w' ∧ e ≤ w'.store.leaseEpoch ∧
      ∃ new, w'.log = new ++ w.log ∧ ∀ c ∈ new, e ≤ c.epoch := by
    refine hr.invariant (I := fun v => Fenced v ∧ e ≤ v.store.leaseEpoch ∧
      ∃ new, v.log = new ++ w.log ∧ ∀ c ∈ new, e ≤ c.epoch) ⟨h,he,[],rfl,by simp⟩ ?_
    rintro v ev ⟨hv,hev,new,hlog,hnew⟩ hp
    obtain ⟨hmono,hstep⟩ := hv.step_log hp
    refine ⟨hv.step hp,le_trans hev hmono,?_⟩
    rcases hstep with hsame | ⟨c,hc,hce⟩
    · exact ⟨new,hsame.trans hlog,hnew⟩
    · refine ⟨c :: new,by rw [List.cons_append,← hlog]; exact hc,?_⟩
      intro d hd
      rcases List.mem_cons.mp hd with rfl | hd
      · rw [hce]
        exact hev
      · exact hnew d hd
  exact ⟨hinv.1,hinv.2.2⟩

end Steps

/-- Once an instance holds epoch `e`, no bind or void of an earlier epoch commits any more;
what earlier leaders bound is stored, and loaded by the new leader while it is live; and
a slot changes hands only after a committed void gave its nonce back. -/
theorem leaders_fenced {w w' : Cluster} {i : Nat} {e : Int}
    (h : cluster.Reaches Cluster.init w) (hi : w.held i = some e) (h' : cluster.Reaches w w') :
    (∃ new, w'.log = new ++ w.log ∧ ∀ c ∈ new, e ≤ c.epoch) ∧
    (∀ c ∈ w'.log, c.epoch < e → ∀ a kind, c.body = .bind a kind →
      ∃ r ∈ w.store.txAttempts.rows, r.id = a.id ∧ r.IsOf a ∧
        (r.live → ∃ l, loadLiveAttemptsFor w.store a.chainId a.signer = .ok l ∧
          ∃ x ∈ l, x.id = a.id)) ∧
    ∀ l₁ c₂ l₂ c₁ l₃ a₁ kind₁ a₂ kind₂, w'.log = l₁ ++ c₂ :: (l₂ ++ c₁ :: l₃) →
      c₁.body = .bind a₁ kind₁ → c₂.body = .bind a₂ kind₂ → a₁.slot = a₂.slot →
      a₁.owner.id ≠ a₂.owner.id → ∃ d ∈ l₂, d.Releases a₁.slot := by
  have hw : Fenced w := h.invariant Fenced.init fun _ _ hs hp => hs.step hp
  obtain ⟨hw',new,hlog,hnew⟩ := hw.run_log (hw.held i e hi) h'
  refine ⟨⟨new,hlog,hnew⟩,?_,?_⟩
  · intro c hc hlt a kind hb
    have hold : c ∈ w.log := by
      rw [hlog] at hc
      rcases List.mem_append.mp hc with hc | hc
      · have := hnew c hc
        omega
      · exact hc
    obtain ⟨r,hr,hid,hof⟩ := hw.rows c hold a kind hb
    refine ⟨r,hr,hid,hof,?_⟩
    intro hlive
    obtain ⟨l,hl,hmem⟩ := loadLive_ok a.chainId a.signer hw.owned
    have hslot := hof.slot
    unfold AttemptRow.slot Attempt.slot at hslot
    injection hslot with hc hs _
    obtain ⟨x,hx,hrow⟩ := hmem r (mem_liveRows.mpr ⟨hr,hc,hs,hlive⟩)
    exact ⟨l,hl,x,hx,(attemptRow_ok hrow).2.1.trans hid⟩
  · intro l₁ c₂ l₂ c₁ l₃ a₁ kind₁ a₂ kind₂ hl hc₁ hc₂ hs hne
    by_contra hno
    push Not at hno
    have hfair : BoundFairly (c₂ :: (l₂ ++ c₁ :: l₃)) := by
      have hf := hw'.fair
      rw [hl] at hf
      clear hl
      induction l₁ with
      | nil => exact hf
      | cons d l₁ ih => exact ih hf.1
    have howner := lastOwner_of_bound hfair.1 rfl hc₁ hno
    exact hne (hfair.2 a₂ kind₂ hc₂ a₁.owner.id (by rw [← hs]; exact howner))

/-- Leader 1 binds nonce 0 to job 1 and voids it as unused; leader 2 binds it to job 2. -/
def handoverRun : List ClusterEvent :=
  let a := Sample.attempt 3 0 .job (.job 1)
  let b := Sample.attempt 4 0 .job (.job 2)
  [.other (.insertJob 1 Sample.request),.other (.insertJob 2 Sample.request),.acquire 1 true,
    .start 1 (.bind a .first),.lock 0,.write 0,.commit 0,
    .start 1 (.void a .nonceUnused .requeue 0),.lock 1,.write 1,.commit 1,.acquire 2 true,
    .start 1 (.bind a .first),.start 2 (.bind b .first),.lock 2,.lock 3,.write 3,.commit 3]

/-- Two leaders can bind one slot to two owners: releasing an unused nonce is how the
engine avoids a gap. -/
theorem slot_rebound :
    ∃ w c₁ c₂ a₁ kind₁ a₂ kind₂, cluster.Reaches Cluster.init w ∧ c₁ ∈ w.log ∧ c₂ ∈ w.log ∧
      c₁.body = .bind a₁ kind₁ ∧ c₂.body = .bind a₂ kind₂ ∧ c₁.epoch ≠ c₂.epoch ∧
      a₁.slot = a₂.slot ∧ a₁.owner ≠ a₂.owner := by
  have hrun : cluster.Runs Cluster.init handoverRun := by decide
  refine ⟨_,⟨1,.bind (Sample.attempt 3 0 .job (.job 1)) .first⟩,
    ⟨2,.bind (Sample.attempt 4 0 .job (.job 2)) .first⟩,_,_,_,_,hrun.reaches,?_,?_,rfl,rfl,
    by decide,by decide,by decide⟩
  · decide
  · decide

theorem leaders_fenced_handover :
    ∃ w w' : Cluster, cluster.Reaches Cluster.init w ∧ w.held 2 = some 2 ∧
      cluster.Reaches w w' ∧ w'.log ≠ w.log ∧
      ∃ new, w'.log = new ++ w.log ∧ ∀ c ∈ new, 2 ≤ c.epoch := by
  have hrun : cluster.Runs Cluster.init (handoverRun.take 12) := by decide
  have hrest : cluster.Runs ((handoverRun.take 12).foldl cluster.step Cluster.init)
    (handoverRun.drop 12) := by decide
  exact ⟨_,_,hrun.reaches,by decide,hrest.reaches,by decide,
    (leaders_fenced (i := 2) hrun.reaches (by decide) hrest.reaches).1⟩

end GumEngine
