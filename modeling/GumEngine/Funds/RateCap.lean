import GumEngine.Funds.Treasury

/-!
# The hourly cap on top-ups

The guard of `treasury::fund` counts the rows of `topups` that were created within the last
hour and have not failed. One worker per chain serves the requests one after the other; what
becomes of a top-up afterwards is up to the pipeline, the treasury and restarts. Times are
those of the database, in microseconds.
-/

namespace GumEngine
open Relational Transition

/-- `fail_topup` -/
def failTopup (s : Store) (id : Uuid) (error : String) : Store :=
  { s with
    topups := s.topups.update (TopupRow.whereIn id [.requested])
      (fun t => { t with status := .failed, error := some error }) fun _ => rfl }

/-- `fail_unbound_topups` -/
def failUnboundTopups (s : Store) (chainId : ChainId) : Store :=
  { s with
    topups := s.topups.update (fun t => t.chainId = chainId && t.status = .requested)
      (fun t => { t with
        status := .failed
        error := some "engine restarted before the top-up was sent" }) fun _ => rfl }

/-- `interval '1 hour'` -/
def hour : Nat := 3600000000

/-- The store with the column `created_at` of `topups`, the clock, and for each chain the signer
whose request the treasury's worker has let past the cap without a row being written yet. -/
structure TopupDesk where
  store : Store
  createdAt : Uuid → Nat
  now : Nat
  serving : ChainId → Option Address

inductive TopupEvent
  | tick (n : Nat)
  | check (chainId : ChainId) (signer : Address)
  | giveUp (chainId : ChainId)
  | createTopup (chainId : ChainId) (treasury : Address) (id : Uuid) (amount : U256) (call : Call)
  | failTopup (id : Uuid) (error : String)
  | failUnboundTopups (chainId : ChainId)
  | op (o : Op)
  | restart
deriving DecidableEq

namespace TopupDesk

variable (s : TopupDesk)

def start : TopupDesk := ⟨Store.empty,fun _ => 0,0,fun _ => none⟩

/-- The top-ups of a signer that have not failed, by the time they were created. -/
def live (chainId : ChainId) (signer : Address) (p : Nat → Bool) : List Uuid :=
  (s.store.topups.rows.filter fun t => t.chainId = chainId && t.signer = signer &&
    !decide (t.status = .failed) && p (s.createdAt t.id)).map TopupRow.id

/-- `created_at > now() - interval '1 hour'` -/
def withinLastHour (created : Nat) : Bool := s.now < created+hour

/-- `recent_topups`; the count is cast to `u32`. -/
def recentTopups (chainId : ChainId) (signer : Address) : Nat :=
  (s.live chainId signer s.withinLastHour).length%2^32

/-- The guard of `fund`: past it the request is served, else refused. -/
def check (cap : ChainId → UInt32) (chainId : ChainId) (signer : Address) : TopupDesk :=
  if s.recentTopups chainId signer ≥ (cap chainId).toNat then s
  else { s with serving := Function.update s.serving chainId (some signer) }

/-- The row is written, or not; either way the worker goes on from here. -/
def create (chainId : ChainId) (treasury : Address) (id : Uuid) (amount : U256) (call : Call) :
    TopupDesk :=
  match s.serving chainId with
  | none => s
  | some signer =>
    let s' := { s with serving := Function.update s.serving chainId none }
    match call,GumEngine.createTopup s.store id chainId treasury signer amount with
    | .refused _,_ | _,.error _ => s'
    | _,.ok store => { s' with store := store, createdAt := Function.update s.createdAt id s.now }

def step (cap : ChainId → UInt32) : TopupEvent → TopupDesk
  | .tick n => { s with now := s.now+n }
  | .check chainId signer => s.check cap chainId signer
  | .giveUp chainId => { s with serving := Function.update s.serving chainId none }
  | .createTopup chainId treasury id amount call => s.create chainId treasury id amount call
  | .failTopup id error => { s with store := GumEngine.failTopup s.store id error }
  | .failUnboundTopups chainId => { s with store := GumEngine.failUnboundTopups s.store chainId }
  | .op o => { s with store := o.apply s.store }
  | .restart => { s with serving := fun _ => none }

/-- A worker serves one request at a time, and only it creates top-ups. -/
def Allowed : TopupEvent → Prop
  | .check chainId _ => s.serving chainId = none
  | .op (.createTopup _ _ _ _ _) => False
  | _ => True

instance : ∀ e, Decidable (s.Allowed e)
  | .check _ _ => inferInstanceAs (Decidable (_ = _))
  | .op (.createTopup _ _ _ _ _) => inferInstanceAs (Decidable False)
  | .op (.insertJob _ _) | .op (.bindAttempt _ _ _) | .op (.settleInclusion _ _ _)
  | .op (.settleConfirmation _) | .op (.updateInclusionBlock _ _ _ _) | .op (.demoteInclusion _)
  | .op (.voidBinding _ _ _ _ _) | .op (.failJob _ _ _ _ _) | .op (.requeueFront _ _)
  | .op (.cancelQueued _) | .op .acquire | .tick _ | .giveUp _ | .createTopup _ _ _ _ _
  | .failTopup _ _ | .failUnboundTopups _ | .restart => inferInstanceAs (Decidable True)

/-- A statement takes effect before its call returns, with an answer or without. -/
def machine (cap : ChainId → UInt32) : Machine TopupDesk TopupEvent := ⟨Allowed,fun s => s.step cap⟩

instance (cap : ChainId → UInt32) (e : TopupEvent) : Decidable ((machine cap).allowed s e) :=
  inferInstanceAs (Decidable (s.Allowed e))

/-- The hour that starts at `t`. -/
def window (t created : Nat) : Bool := t ≤ created && created < t+hour

/-- In every hour, no signer has more live top-ups than the cap. -/
def Capped (cap : ChainId → UInt32) : Prop :=
  ∀ chainId signer t, (s.live chainId signer (window t)).length ≤ (cap chainId).toNat

end TopupDesk

/-! ## What a transaction does to the rows -/

section Carried

variable {s s' : Store}

/-- No row is new, none changes hands and none that failed comes back. -/
def TopupsCarried (s s' : Store) : Prop :=
  ∀ t' ∈ s'.topups.rows, ∃ t ∈ s.topups.rows, t.id = t'.id ∧ t.chainId = t'.chainId ∧
    t.signer = t'.signer ∧ (t.status = .failed → t'.status = .failed)

theorem TopupsCarried.of_eq (h : s'.topups = s.topups) : TopupsCarried s s' :=
  fun t' ht' => ⟨t',h ▸ ht',rfl,rfl,rfl,id⟩

/-- An update that fails rows, or touches only rows that have not failed. -/
theorem TopupsCarried.of_rewrite {p : TopupRow → Bool} {f : TopupRow → TopupRow}
    (h : s'.topups.rows = s.topups.rows.map (rewrite p f))
    (hk : ∀ t, (f t).id = t.id ∧ (f t).chainId = t.chainId ∧ (f t).signer = t.signer)
    (hst : ∀ t, p t = true → t.status = .failed → (f t).status = .failed) :
    TopupsCarried s s' := by
  intro t' ht'
  rw [h] at ht'
  obtain ⟨t,ht,rfl⟩ := List.mem_map.mp ht'
  by_cases hp : p t = true
  · rw [rewrite_of hp]
    exact ⟨t,ht,(hk t).1.symm,(hk t).2.1.symm,(hk t).2.2.symm,hst t hp⟩
  · rw [rewrite_of_not hp]
    exact ⟨t,ht,rfl,rfl,rfl,id⟩

/-- Every transaction of the pipeline but `create_topup` carries the rows. -/
theorem Op.carried (s : Store) (op : Op)
    (hop : ∀ id c t g n, op ≠ .createTopup id c t g n) : TopupsCarried s (op.apply s) := by
  intro t' ht'
  obtain ⟨t,ht,hmoved⟩ := op.topups_moved s hop t' ht'
  exact ⟨t,ht,hmoved.id,hmoved.chainId,hmoved.signer,hmoved.failed⟩

end Carried

/-! ## The cap over runs -/

namespace TopupDesk

variable {s s' : TopupDesk} {cap : ChainId → UInt32} {chainId : ChainId} {signer : Address}
  {p p' : Nat → Bool}

theorem mem_live {id : Uuid} : id ∈ s.live chainId signer p ↔
    ∃ t ∈ s.store.topups.rows, t.id = id ∧ t.chainId = chainId ∧ t.signer = signer ∧
      t.status ≠ .failed ∧ p (s.createdAt t.id) = true := by
  unfold live
  rw [List.mem_map]
  constructor
  · rintro ⟨t,ht,rfl⟩
    obtain ⟨ht,hp⟩ := List.mem_filter.1 ht
    simp only [Bool.and_eq_true,decide_eq_true_eq,Bool.not_eq_true',decide_eq_false_iff_not] at hp
    exact ⟨t,ht,rfl,hp.1.1.1,hp.1.1.2,hp.1.2,hp.2⟩
  · rintro ⟨t,ht,rfl,hc,hg,hst,hp⟩
    refine ⟨t,List.mem_filter.2 ⟨ht,?_⟩,rfl⟩
    simp [hc,hg,hst,hp]

/-- Ids are unique, so lists of them are compared by membership. -/
theorem live_nodup (s : TopupDesk) (chainId : ChainId) (signer : Address) (p : Nat → Bool) :
    (s.live chainId signer p).Nodup :=
  List.pairwise_map.2 (s.store.topups.unique.sublist List.filter_sublist)

theorem live_length_le (h : s'.live chainId signer p' ⊆ s.live chainId signer p) :
    (s'.live chainId signer p').length ≤ (s.live chainId signer p).length :=
  ((live_nodup s' chainId signer p').subperm h).length_le

/-- Failing is for good, so carried rows are live only where they were. -/
theorem live_carried (h : TopupsCarried s.store s'.store) (hc : s'.createdAt = s.createdAt)
    (hp : ∀ created, p' created = true → p created = true) :
    s'.live chainId signer p' ⊆ s.live chainId signer p := by
  intro id hid
  obtain ⟨t',ht',rfl,rfl,rfl,hst,hp'⟩ := mem_live.1 hid
  obtain ⟨t,ht,hid,hchain,hsigner,hf⟩ := h t' ht'
  refine mem_live.2 ⟨t,ht,hid,hchain,hsigner,fun h => hst (hf h),hp _ ?_⟩
  rwa [hid,← hc]

/-- Past creations, the cap in every hour, and room under the cap for the request being
served. -/
structure Sound (cap : ChainId → UInt32) (s : TopupDesk) : Prop where
  past : ∀ t ∈ s.store.topups.rows, s.createdAt t.id ≤ s.now
  capped : s.Capped cap
  room : ∀ chainId signer, s.serving chainId = some signer →
    (s.live chainId signer s.withinLastHour).length < (cap chainId).toNat

/-- What only carries rows, lets time pass and drops requests keeps everything. -/
theorem Sound.carried (hs : s.Sound cap) (h : TopupsCarried s.store s'.store)
    (hc : s'.createdAt = s.createdAt) (hnow : s.now ≤ s'.now)
    (hserving : ∀ c g, s'.serving c = some g → s.serving c = some g) : s'.Sound cap where
  past := by
    intro t' ht'
    obtain ⟨t,ht,hid,-⟩ := h t' ht'
    rw [hc,← hid]
    exact (hs.past t ht).trans hnow
  capped := fun c g t => (live_length_le (live_carried h hc fun _ => id)).trans (hs.capped c g t)
  room := by
    intro c g hg
    refine lt_of_le_of_lt (live_length_le (live_carried h hc ?_)) (hs.room c g (hserving c g hg))
    intro created hr
    simp only [withinLastHour,decide_eq_true_eq] at hr ⊢
    omega

theorem serving_update_none {f : ChainId → Option Address} (chainId c : ChainId) (g : Address)
    (h : Function.update f chainId none c = some g) : f c = some g := by
  by_cases hc : c = chainId
  · subst hc
    simp at h
  · rwa [Function.update_of_ne hc] at h

/-- All that counts as recent lies in the hour up to now, so the cast loses nothing. -/
theorem Sound.recentTopups_eq (hs : s.Sound cap) (chainId : ChainId) (signer : Address) :
    s.recentTopups chainId signer = (s.live chainId signer s.withinLastHour).length := by
  have hsub : s.live chainId signer s.withinLastHour ⊆
      s.live chainId signer (window (s.now+1-hour)) := by
    intro id hid
    obtain ⟨t,ht,hid,hc,hg,hst,hp⟩ := mem_live.1 hid
    refine mem_live.2 ⟨t,ht,hid,hc,hg,hst,?_⟩
    have hle := hs.past t ht
    simp only [withinLastHour,window,decide_eq_true_eq,Bool.and_eq_true] at hp ⊢
    omega
  have hle := (live_length_le hsub).trans (hs.capped chainId signer _)
  exact Nat.mod_eq_of_lt (hle.trans_lt (cap chainId).toNat_lt)

theorem Sound.check (hs : s.Sound cap) (chainId : ChainId) (signer : Address) :
    (s.check cap chainId signer).Sound cap := by
  unfold TopupDesk.check
  split
  · exact hs
  next hlt =>
    refine ⟨hs.past,hs.capped,?_⟩
    intro c g hg
    change Function.update s.serving chainId (some signer) c = some g at hg
    show (s.live c g s.withinLastHour).length < (cap c).toNat
    by_cases hc : c = chainId
    · subst hc
      rw [Function.update_self] at hg
      cases hg
      rw [hs.recentTopups_eq] at hlt
      exact not_le.1 hlt
    · rw [Function.update_of_ne hc] at hg
      exact hs.room c g hg

/-- A new row is live where it was written, and nothing else changes. -/
theorem live_created {store : Store} {id : Uuid} {treasury : Address} {amount : U256}
    (serving : ChainId → Option Address)
    (h : GumEngine.createTopup s.store id chainId treasury signer amount = .ok store)
    (c : ChainId) (g : Address) (p : Nat → Bool) :
    TopupDesk.live ⟨store,Function.update s.createdAt id s.now,s.now,serving⟩ c g p ⊆
      s.live c g p++(if c = chainId ∧ g = signer ∧ p s.now = true then [id] else []) := by
  unfold GumEngine.createTopup at h
  split at h
  · cases h
  next topups hins =>
    cases h
    obtain ⟨hrows,hfresh⟩ := Table.insert_eq_some hins
    intro x hx
    obtain ⟨t,ht,rfl,rfl,rfl,hst,hp⟩ := mem_live.1 hx
    change t ∈ topups.rows at ht
    change p (Function.update s.createdAt id s.now t.id) = true at hp
    rw [hrows] at ht
    obtain ht | ht := List.mem_append.1 ht
    · rw [Function.update_of_ne (hfresh t ht)] at hp
      exact List.mem_append_left _ (mem_live.2 ⟨t,ht,rfl,rfl,rfl,hst,hp⟩)
    · obtain rfl := List.mem_singleton.1 ht
      rw [Function.update_self] at hp
      rw [if_pos ⟨rfl,rfl,hp⟩]
      exact List.mem_append_right _ (List.mem_singleton_self _)

theorem created_past {store : Store} {id : Uuid} {treasury : Address} {amount : U256}
    (h : GumEngine.createTopup s.store id chainId treasury signer amount = .ok store)
    (hpast : ∀ t ∈ s.store.topups.rows, s.createdAt t.id ≤ s.now) :
    ∀ t ∈ store.topups.rows, Function.update s.createdAt id s.now t.id ≤ s.now := by
  unfold GumEngine.createTopup at h
  split at h
  · cases h
  next topups hins =>
    cases h
    intro t ht
    by_cases hid : t.id = id
    · rw [hid,Function.update_self]
    · rw [Function.update_of_ne hid]
      change t ∈ topups.rows at ht
      rw [(Table.insert_eq_some hins).1] at ht
      obtain ht | ht := List.mem_append.1 ht
      · exact hpast t ht
      · obtain rfl := List.mem_singleton.1 ht
        exact absurd rfl hid

/-- The row that a served request writes still fits under the cap of every hour that holds it. -/
theorem Sound.created (hs : s.Sound cap) {store : Store} {id : Uuid} {treasury : Address}
    {amount : U256} (hserving : s.serving chainId = some signer)
    (h : GumEngine.createTopup s.store id chainId treasury signer amount = .ok store) :
    TopupDesk.Sound cap ⟨store,Function.update s.createdAt id s.now,s.now,
      Function.update s.serving chainId none⟩ where
  past := created_past h hs.past
  capped := by
    intro c g t
    have hle := ((live_nodup _ c g (window t)).subperm
      (live_created (Function.update s.serving chainId none) h c g (window t))).length_le
    refine hle.trans ?_
    rw [List.length_append]
    split
    next hw =>
      -- the hour holds the present, so whatever it holds besides counted as recent
      obtain ⟨rfl,rfl,hw⟩ := hw
      have hsub : s.live c g (window t) ⊆ s.live c g s.withinLastHour := by
        intro x hx
        obtain ⟨r,hr,hid,hc,hg,hst,hp⟩ := mem_live.1 hx
        refine mem_live.2 ⟨r,hr,hid,hc,hg,hst,?_⟩
        simp only [withinLastHour,window,decide_eq_true_eq,Bool.and_eq_true] at hp hw ⊢
        omega
      exact (Nat.add_le_add_right (live_length_le hsub) 1).trans (hs.room c g hserving)
    next => exact hs.capped c g t
  room := by
    intro c g hg
    change Function.update s.serving chainId none c = some g at hg
    have hne : c ≠ chainId := by
      rintro rfl
      rw [Function.update_self] at hg
      cases hg
    have hle := ((live_nodup _ c g s.withinLastHour).subperm
      (live_created (Function.update s.serving chainId none) h c g s.withinLastHour)).length_le
    rw [if_neg (fun h => hne h.1),List.append_nil] at hle
    exact hle.trans_lt (hs.room c g (serving_update_none chainId c g hg))

theorem Sound.create (hs : s.Sound cap) (chainId : ChainId) (treasury : Address) (id : Uuid)
    (amount : U256) (call : Call) : (s.create chainId treasury id amount call).Sound cap := by
  have hdrop : TopupDesk.Sound cap
      { s with serving := Function.update s.serving chainId none } :=
    hs.carried (.of_eq rfl) rfl le_rfl fun c g => serving_update_none chainId c g
  unfold TopupDesk.create
  split
  · exact hs
  next signer hserving =>
    dsimp only
    split
    · exact hdrop
    · exact hdrop
    next store _ hok => exact hs.created hserving hok

theorem Sound.step (hs : s.Sound cap) {e : TopupEvent} (he : s.Allowed e) :
    (s.step cap e).Sound cap := by
  cases e with
  | tick n => exact hs.carried (.of_eq rfl) rfl (Nat.le_add_right _ _) fun _ _ h => h
  | check chainId signer => exact hs.check chainId signer
  | giveUp chainId =>
    exact hs.carried (.of_eq rfl) rfl le_rfl fun c g => serving_update_none chainId c g
  | createTopup chainId treasury id amount call => exact hs.create chainId treasury id amount call
  | failTopup id error =>
    exact hs.carried (.of_rewrite rfl (fun _ => ⟨rfl,rfl,rfl⟩) fun _ _ _ => rfl) rfl le_rfl
      fun _ _ h => h
  | failUnboundTopups chainId =>
    exact hs.carried (.of_rewrite rfl (fun _ => ⟨rfl,rfl,rfl⟩) fun _ _ _ => rfl) rfl le_rfl
      fun _ _ h => h
  | op o =>
    refine hs.carried (o.carried s.store ?_) rfl le_rfl fun _ _ h => h
    rintro id c t g n rfl
    exact he
  | restart => exact hs.carried (.of_eq rfl) rfl le_rfl fun _ _ h => nomatch h

theorem sound_start (cap : ChainId → UInt32) : start.Sound cap where
  past := fun _ h => absurd h List.not_mem_nil
  capped := fun _ _ _ => Nat.zero_le _
  room := fun _ _ h => nomatch h

end TopupDesk

/-- Whatever becomes of the top-ups and however often the engine restarts: in every hour, no
signer has more top-ups that did not fail than its chain's cap. -/
theorem topups_capped (cap : ChainId → UInt32) (s : TopupDesk)
    (h : (TopupDesk.machine cap).Reaches TopupDesk.start s) : s.Capped cap :=
  (h.invariant (I := TopupDesk.Sound cap) (TopupDesk.sound_start cap)
    fun _ _ hs he => hs.step he).capped

namespace Sample

/-- The first request is served; the second, within the same hour, is refused. -/
def twoRequests : List TopupEvent :=
  [.check 1 7,.createTopup 1 9 5 100 .answered,.tick 1000,.check 1 7,
    .createTopup 1 9 6 100 .answered]

end Sample

theorem topups_capped_two_requests :
    let s := Sample.twoRequests.foldl (TopupDesk.machine fun _ => 1).step TopupDesk.start
    s.live 1 7 (TopupDesk.window 0) = [5] ∧
      (s.live 1 7 (TopupDesk.window 0)).length ≤ 1 := by
  intro s
  have hrun : (TopupDesk.machine fun _ => 1).Runs TopupDesk.start Sample.twoRequests :=
    by decide +kernel
  exact ⟨by decide +kernel,topups_capped (fun _ => 1) s hrun.reaches 1 7 0⟩

end GumEngine
