import GumEngine.Confirm.Held

/-!
# Where an attempt is said to be

The block of an included attempt is kept in the store, in a queued write, in a pending check
and in what recovery has loaded. A demotion is right as long as all of these agree, and each
of the three ways to place an attempt in a block can break the agreement.
-/

namespace GumEngine
open Relational Transition

/-- What recovery has loaded as included; `full` says whether that counts. -/
def loadedPlaces (full : Bool) (todo : List (List Attempt)) : List Place :=
  if full then (todo.flatten.filter fun a => a.status = .included).map fun a => (a.id,a.block)
  else []

@[simp] def Worker.places (full : Bool) : Worker → List Place
  | driving _ todo => loadedPlaces full (todo.getD [])
  | settling a inc todo => (a.id,inc.stored) :: loadedPlaces full (todo.getD [])
  | recovering todo => loadedPlaces full todo
  | demoting a _ todo => (if full then [(a.id,a.block)] else []) ++ loadedPlaces full todo
  | _ => []

/-- An item whose move is not written yet is nowhere. -/
def OnMissing.places : OnMissing → List Place
  | asking item | vanished item _ => [(item.attempt.id,item.block)]
  | moved _ _ => []

def Store.places (s : Store) (c : ChainId) : List Place :=
  (s.txAttempts.rows.filter fun r => r.chainId = c ∧ r.status = .included).map fun r => (r.id,r.block)

namespace Engine

/-- What is in memory about the attempts of a pair. -/
def memory (e : Engine) (full : Bool) (p : Address) : List Place :=
  e.queue.flatMap SettleOp.places ++ e.pending.map (fun i => (i.attempt.id,i.block)) ++
    e.missing.toList.flatMap OnMissing.places ++ (e.workers p).places full

def places (e : Engine) (full : Bool) (c : ChainId) (p : Address) : List Place :=
  e.store.places c ++ e.memory full p

/-- The attempt that an event places in a block: a receipt is settled, recovery submits what
it found, or the verifier writes where it followed a transaction to. -/
def placed (chain : ChainCtx) (e : Engine) : Event → Option (Attempt × Inclusion)
  | .receipt p r =>
    match e.workers p with
    | .driving attempts _ => (attempts.find? fun a => a.txHash = r.transactionHash).bind fun a =>
        (inclusionFrom chain a r).map fun inc => (a,inc)
    | _ => none
  | .look p (some (some r)) =>
    match e.workers p with
    | .recovering (group :: _) => (group.find? fun a => a.status = .included).bind fun a =>
        if chain.confirmCheck = .immediate then none
        else (inclusionFrom chain a r).map fun inc => (a,inc)
    | _ => none
  | .resolve _ =>
    match e.missing with
    | some (.moved item true) => some (item.attempt,item.inclusion)
    | _ => none
  | _ => none

/-- What has to agree with it: a move that is written takes the stored row along. -/
def others (e : Engine) (full : Bool) (c : ChainId) (p : Address) : Event → List Place
  | .resolve call => if call.reaches then e.memory full p else e.places full c p
  | _ => e.places full c p

/-- Nothing else has the attempt in another block. -/
def Event.Unambiguous (full : Bool) (chain : ChainCtx) (c : ChainId) (e : Engine) (ev : Event) : Prop :=
  ∀ x ∈ e.placed chain ev, ∀ y ∈ e.others full c x.1.signer ev, y.1 = x.1.id → y.2 = x.2.stored

instance (full : Bool) (chain : ChainCtx) (c : ChainId) (e : Engine) (ev : Event) :
    Decidable (ev.Unambiguous full chain c e) :=
  inferInstanceAs (Decidable (∀ x ∈ e.placed chain ev, ∀ y ∈ e.others full c x.1.signer ev,
    y.1 = x.1.id → y.2 = x.2.stored))

/-- All places of an attempt are one. -/
def Agrees (full : Bool) (c : ChainId) (e : Engine) : Prop :=
  ∀ p, ∀ x ∈ e.places full c p, ∀ y ∈ e.places full c p, x.1 = y.1 → x.2 = y.2

end Engine

section Agreement

variable {full : Bool} {chain : ChainCtx} {c : ChainId} {e e' : Engine} {ev : Engine.Event} {new : List Place}
  {p : Address} {x : Place}

theorem mem_places : x ∈ e.places full c p ↔ x ∈ e.store.places c ∨
    (∃ op ∈ e.queue, x ∈ op.places) ∨ (∃ i ∈ e.pending, (i.attempt.id,i.block) = x) ∨
    (∃ m, e.missing = some m ∧ x ∈ m.places) ∨ x ∈ (e.workers p).places full := by
  simp only [Engine.places,Engine.memory,List.append_assoc,List.mem_append,List.mem_flatMap,
    List.mem_map,Option.mem_toList]

theorem Engine.placed_receipt {r : Receipt} {attempts : List Attempt}
    {todo : Option (List (List Attempt))} {a : Attempt} {inc : Inclusion}
    (hw : e.workers p = .driving attempts todo)
    (ha : attempts.find? (fun a => a.txHash = r.transactionHash) = some a)
    (hi : inclusionFrom chain a r = some inc) :
    e.placed chain (.receipt p r) = some (a,inc) := by
  unfold Engine.placed
  simp only [hw,ha,hi,Option.bind_some,Option.map_some]

theorem Engine.placed_look {r : Receipt} {group : List Attempt} {todo : List (List Attempt)}
    {a : Attempt} {inc : Inclusion} (hw : e.workers p = .recovering (group :: todo))
    (ha : group.find? (fun a => a.status = .included) = some a)
    (hi : inclusionFrom chain a r = some inc) (hc : chain.confirmCheck ≠ .immediate) :
    e.placed chain (.look p (some (some r))) = some (a,inc) := by
  unfold Engine.placed
  simp only [hw,ha,hi,Option.bind_some,Option.map_some,hc,if_false]

theorem Engine.placed_moved {item : PendingConfirmation} {call : Call}
    (hm : e.missing = some (.moved item true)) :
    e.placed chain (.resolve call) = some (item.attempt,item.inclusion) := by
  unfold Engine.placed
  simp only [hm]

theorem mem_storePlaces {s : Store} : x ∈ s.places c ↔
    ∃ r ∈ s.txAttempts.rows, r.chainId = c ∧ r.status = .included ∧ (r.id,r.block) = x := by
  simp only [Store.places,List.mem_map,List.mem_filter,decide_eq_true_eq]
  constructor
  · rintro ⟨r,⟨hr,hc,hin⟩,hx⟩
    exact ⟨r,hr,hc,hin,hx⟩
  · rintro ⟨r,hr,hc,hin,hx⟩
    exact ⟨r,⟨hr,hc,hin⟩,hx⟩

theorem RowStep.places {s s' : Store} (h : RowStep c new s s') (hx : x ∈ s'.places c) :
    x ∈ s.places c ∨ x ∈ new := by
  obtain ⟨r',hr',hc,hin,rfl⟩ := mem_storePlaces.mp hx
  obtain ⟨r,hr,hsame,⟨hst,hb⟩ | hnew⟩ := h.keeps r' hr' hc hin
  · refine .inl (mem_storePlaces.mpr ⟨r,hr,hsame.chainId ▸ hc,hst,?_⟩)
    rw [hsame.id,hb]
  · exact .inr hnew

/-- No place is new. -/
theorem Engine.Agrees.of (h : e.Agrees full c) (hsub : ∀ q, ∀ x ∈ e'.places full c q, x ∈ e.places full c q) :
    e'.Agrees full c := by
  intro q x hx y hy
  exact h q x (hsub q x hx) y (hsub q y hy)

/-- One place is new, and agrees with those that stay. -/
theorem Engine.Agrees.add (h : e.Agrees full c) {P : Address → List Place} {n : Place}
    (hP : ∀ q, ∀ x ∈ P q, x ∈ e.places full c q)
    (hsub : ∀ q, ∀ x ∈ e'.places full c q, x ∈ P q ∨ x = n)
    (hn : ∀ q, ∀ y ∈ P q, y.1 = n.1 → y.2 = n.2) : e'.Agrees full c := by
  intro q x hx y hy hxy
  rcases hsub q x hx with hx | rfl <;> rcases hsub q y hy with hy | rfl
  · exact h q x (hP q x hx) y (hP q y hy) hxy
  · exact hn q x hx hxy
  · exact (hn q y hy hxy.symm).symm
  · rfl

theorem mem_loadedPlaces {todo : List (List Attempt)} : x ∈ loadedPlaces full todo ↔
    full = true ∧ ∃ a ∈ todo.flatten, a.status = .included ∧ (a.id,a.block) = x := by
  cases full with
  | true => simp only [loadedPlaces,if_true,List.mem_map,List.mem_filter,decide_eq_true_eq,
      and_assoc,true_and]
  | false => simp [loadedPlaces]

theorem loadedPlaces_nil : loadedPlaces full [] = [] := by
  cases full <;> rfl

/-- The places of a worker are about attempts it holds. -/
theorem Worker.places_attempts {w : Worker} (h : x ∈ w.places full) :
    ∃ a ∈ w.attempts, a.id = x.1 := by
  have hloaded : ∀ todo : List (List Attempt), x ∈ loadedPlaces full todo →
      ∃ a ∈ todo.flatten, a.id = x.1 := by
    intro todo hx
    obtain ⟨-,a,ha,-,rfl⟩ := mem_loadedPlaces.mp hx
    exact ⟨a,ha,rfl⟩
  cases w with
  | idle | picked | flushing | loading => cases h
  | driving attempts todo =>
    obtain ⟨a,ha,hid⟩ := hloaded _ h
    exact ⟨a,List.mem_append_right _ ha,hid⟩
  | settling b inc todo =>
    rcases List.mem_cons.mp h with rfl | h
    · exact ⟨b,List.mem_cons_self,rfl⟩
    · obtain ⟨a,ha,hid⟩ := hloaded _ h
      exact ⟨a,List.mem_cons_of_mem _ ha,hid⟩
  | recovering todo => exact hloaded _ h
  | demoting b group todo =>
    rcases List.mem_append.mp h with h | h
    · split at h
      · rw [List.mem_singleton.mp h]
        exact ⟨b,List.mem_cons_self,rfl⟩
      · cases h
    · obtain ⟨a,ha,hid⟩ := hloaded _ h
      exact ⟨a,List.mem_append_right _ ha,hid⟩

/-- What agrees with the places of the pair that signed it agrees with all places: the
workers of other pairs do not hold it. -/
theorem Held.agrees_all (h : Held c e) {a : Attempt} {b : StoredBlock} (hk : a.KnownIn c e.store)
    {L : Address → List Place}
    (hL : ∀ q, ∀ y ∈ L q, y ∈ L a.signer ∨ y ∈ (e.workers q).places full)
    (hn : ∀ y ∈ L a.signer, y.1 = a.id → y.2 = b) (q : Address) :
    ∀ y ∈ L q, y.1 = a.id → y.2 = b := by
  intro y hy hid
  rcases hL q y hy with hy | hy
  · exact hn y hy hid
  · obtain ⟨x,hx,hxid⟩ := Worker.places_attempts hy
    obtain ⟨hxk,hxs⟩ := h.workers q x hx
    have hq : a.signer = q := (hk.signer hxk (hxid.trans hid).symm).trans hxs
    subst hq
    exact hn y ‹_› hid

/-- The places after a step are places before it, piece by piece. -/
theorem Engine.places_sub {q : Address} (hr : RowStep c new e.store e'.store)
    (hnew : ∀ x ∈ new, x ∈ e.places full c q)
    (hq : ∀ op ∈ e'.queue, op ∈ e.queue ∨ op.places = [])
    (hp : ∀ i ∈ e'.pending, (i.attempt.id,i.block) ∈ e.places full c q)
    (hm : ∀ m, e'.missing = some m → ∀ x ∈ m.places, x ∈ e.places full c q)
    (hw : ∀ x ∈ (e'.workers q).places full, x ∈ e.places full c q) :
    ∀ x ∈ e'.places full c q, x ∈ e.places full c q := by
  intro x hx
  rcases mem_places.mp hx with hx | ⟨op,hop,hx⟩ | ⟨i,hi,rfl⟩ | ⟨m,hmm,hx⟩ | hx
  · rcases hr.places hx with hx | hx
    · exact mem_places.mpr (.inl hx)
    · exact hnew x hx
  · rcases hq op hop with hop | hop
    · exact mem_places.mpr (.inr (.inl ⟨op,hop,hx⟩))
    · rw [hop] at hx
      cases hx
  · exact hp i hi
  · exact hm m hmm x hx
  · exact hw x hx

/-- The pending items of `e` are places. -/
theorem Engine.pending_places {q : Address} {i : PendingConfirmation} (hi : i ∈ e.pending) :
    (i.attempt.id,i.block) ∈ e.places full c q :=
  mem_places.mpr (.inr (.inr (.inl ⟨i,hi,rfl⟩)))

theorem Engine.missing_places {q : Address} {m : OnMissing} (hm : e.missing = some m)
    (hx : x ∈ m.places) : x ∈ e.places full c q :=
  mem_places.mpr (.inr (.inr (.inr (.inl ⟨m,hm,hx⟩))))

theorem Engine.worker_places {q : Address} (hx : x ∈ (e.workers q).places full) :
    x ∈ e.places full c q :=
  mem_places.mpr (.inr (.inr (.inr (.inr hx))))

/-- A step of the worker of `p` that leaves queue and verifier alone. -/
theorem Engine.Agrees.worker (h : e.Agrees full c) {w : Worker} (hr : RowStep c [] e.store e'.store)
    (hq : ∀ op ∈ e'.queue, op ∈ e.queue ∨ op.places = []) (hp : e'.pending = e.pending)
    (hm : e'.missing = e.missing) (he : e'.workers = Function.update e.workers p w)
    (hw : ∀ x ∈ w.places full, x ∈ e.places full c p) : e'.Agrees full c := by
  refine h.of fun q => Engine.places_sub hr (by simp) hq ?_ ?_ ?_
  · intro i hi
    rw [hp] at hi
    exact Engine.pending_places hi
  · intro m hm' x hx
    rw [hm] at hm'
    exact Engine.missing_places hm' hx
  · intro x hx
    rw [he] at hx
    by_cases hqp : q = p
    · subst hqp
      rw [Function.update_self] at hx
      exact hw x hx
    · rw [Function.update_of_ne hqp] at hx
      exact Engine.worker_places hx

/-- A step of the settler or the verifier that places nothing. -/
theorem Engine.Agrees.others (h : e.Agrees full c) (hr : RowStep c new e.store e'.store)
    (hnew : ∀ x ∈ new, ∃ op ∈ e.queue, x ∈ op.places)
    (hq : ∀ op ∈ e'.queue, op ∈ e.queue ∨ op.places = [])
    (hp : ∀ i ∈ e'.pending, ∀ q, (i.attempt.id,i.block) ∈ e.places full c q)
    (hm : ∀ m, e'.missing = some m → ∀ x ∈ m.places, ∀ q, x ∈ e.places full c q)
    (he : e'.workers = e.workers) : e'.Agrees full c := by
  refine h.of fun q => Engine.places_sub hr ?_ hq (fun i hi => hp i hi q)
    (fun m hm' x hx => hm m hm' x hx q) ?_
  · intro x hx
    exact mem_places.mpr (.inr (.inl (hnew x hx)))
  · intro x hx
    rw [he] at hx
    exact Engine.worker_places hx

theorem loadedPlaces_sub {todo todo' : List (List Attempt)}
    (h : ∀ a ∈ todo'.flatten, a ∈ todo.flatten) (hx : x ∈ loadedPlaces full todo') :
    x ∈ loadedPlaces full todo := by
  obtain ⟨hf,a,ha,hin,rfl⟩ := mem_loadedPlaces.mp hx
  exact mem_loadedPlaces.mpr ⟨hf,a,h a ha,hin,rfl⟩

theorem Engine.next_places {todo : Option (List (List Attempt))} :
    (Engine.next todo).places full = loadedPlaces full (todo.getD []) := by
  cases todo with
  | none => exact loadedPlaces_nil.symm
  | some todo => rfl

theorem Engine.resending_places {group : List Attempt} {todo : List (List Attempt)} :
    (Engine.resending group todo).places full = loadedPlaces full todo := by
  rcases Engine.resending_cases group todo with h | h <;> rw [h] <;> rfl

/-- Recovery loads what is stored. -/
theorem loaded_places {s : Store} {live : List Attempt} (hl : loadLiveAttemptsFor s c p = .ok live)
    (hx : x ∈ loadedPlaces full (byNonce live)) : x ∈ s.places c := by
  obtain ⟨-,a,ha,hin,rfl⟩ := mem_loadedPlaces.mp hx
  obtain ⟨g,hg,ha⟩ := List.mem_flatten.mp ha
  obtain ⟨n,hn⟩ := byNonce_mem hg
  obtain ⟨r,hr,hrow⟩ := (mem_mapM hl).2 a (hn a ha).1
  obtain ⟨hm,hc,-,-⟩ := mem_liveRows.mp hr
  obtain ⟨-,hid,-,-⟩ := attemptRow_ok hrow
  obtain ⟨hst,hnumber,hhash⟩ := attemptRow_mined hrow
  refine mem_storePlaces.mpr ⟨r,hm,hc,hst ▸ hin,?_⟩
  rw [Attempt.block,hid,hnumber,hhash]
  rfl

/-- An attempt is placed, and everything else has it there. -/
theorem Engine.Agrees.place (h : e.Agrees full c) (hh : Held c e) {a : Attempt} {b : StoredBlock}
    (hk : a.KnownIn c e.store) (hn : ∀ y ∈ e.places full c a.signer, y.1 = a.id → y.2 = b)
    (hsub : ∀ q, ∀ x ∈ e'.places full c q, x ∈ e.places full c q ∨ x = (a.id,b)) : e'.Agrees full c := by
  refine h.add (P := fun q => e.places full c q) (fun _ _ => id) hsub ?_
  have hL : ∀ q, ∀ y ∈ e.places full c q,
      y ∈ e.places full c a.signer ∨ y ∈ (e.workers q).places full := ?_
  · exact hh.agrees_all hk hL hn
  intro q y hy
  rcases mem_places.mp hy with hy | hy | hy | hy | hy
  · exact .inl (mem_places.mpr (.inl hy))
  · exact .inl (mem_places.mpr (.inr (.inl hy)))
  · exact .inl (mem_places.mpr (.inr (.inr (.inl hy))))
  · exact .inl (mem_places.mpr (.inr (.inr (.inr (.inl hy)))))
  · exact .inr hy

/-- A move that is written leaves nothing of the attempt behind. -/
theorem update_places {s : Store} {a : Attempt} {number : Nat} {hash : B256} {receipt : Receipt}
    (hx : x ∈ (updateInclusionBlock s a number hash receipt).places c) :
    x ∈ s.places c ∧ x.1 ≠ a.id ∨ x = (a.id,(some number,some hash)) := by
  obtain ⟨r',hr',hc,hin,rfl⟩ := mem_storePlaces.mp hx
  rw [(updateInclusionBlock_spec s a number hash receipt).attempts] at hr'
  obtain ⟨r,hr,rfl⟩ := List.mem_map.mp hr'
  have hsame := moveRow_same a number hash r
  rw [moveRow_status] at hin
  by_cases hid : r.id = a.id
  · right
    simp [AttemptRow.block,moveRow,rewrite,AttemptRow.whereIn,hid,hin]
  · left
    refine ⟨mem_storePlaces.mpr ⟨r,hr,hsame.chainId ▸ hc,hin,?_⟩,by rw [hsame.id]; exact hid⟩
    simp [AttemptRow.block,moveRow,rewrite,AttemptRow.whereIn,hid]

/-- The verifier writes a move, or fails to. -/
theorem Engine.Agrees.updated (h : e.Agrees full c) (hh : Held c e) {item : PendingConfirmation}
    {call : Call} {s : Store} (hm : e.missing = some (.moved item true))
    (hs : Called e (updateInclusionBlock e.store item.attempt item.inclusion.blockNumber
      item.inclusion.blockHash item.inclusion.receipt) call.reaches s)
    (hcond : ∀ y ∈ e.others full c item.attempt.signer (.resolve call),
      y.1 = item.attempt.id → y.2 = item.block) :
    ({ e with store := s, missing := none }.submit item).Agrees full c := by
  have hk : item.attempt.KnownIn c e.store :=
    hh.shared _ (mem_shared.mpr (.inr (.inr ⟨_,hm,rfl⟩)))
  have hmem : ∀ q x, x ∈ ({ e with store := s, missing := none }.submit item).places full c q →
      x ∈ s.places c ∨ x ∈ e.memory full q ∨ x = (item.attempt.id,item.block) := by
    intro q x hx
    simp only [Engine.memory,List.mem_append,List.mem_flatMap,List.mem_map]
    rcases mem_places.mp hx with hx | hx | ⟨i,hi,rfl⟩ | ⟨m,hm,-⟩ | hx
    · exact .inl hx
    · exact .inr (.inl (.inl (.inl (.inl hx))))
    · rcases List.mem_append.mp hi with hi | hi
      · exact .inr (.inl (.inl (.inl (.inr ⟨i,hi,rfl⟩))))
      · rw [List.mem_singleton.mp hi]
        exact .inr (.inr rfl)
    · cases hm
    · exact .inr (.inl (.inr hx))
  cases hc : call.reaches with
  | true =>
    rw [hc] at hs
    cases hs
    -- the stored row moves along, so it need not agree
    simp only [Engine.others,hc,if_true] at hcond
    refine h.add (P := fun q =>
      (e.store.places c).filter (fun x => x.1 ≠ item.attempt.id) ++ e.memory full q) ?_ ?_ ?_
      (n := (item.attempt.id,item.block))
    · intro q x hx
      rcases List.mem_append.mp hx with hx | hx
      · exact List.mem_append_left _ (List.mem_filter.mp hx).1
      · exact List.mem_append_right _ hx
    · intro q x hx
      rcases hmem q x hx with hx | hx | rfl
      · refine (update_places hx).imp_left fun hx => ?_
        exact List.mem_append_left _ (List.mem_filter.mpr ⟨hx.1,by simpa using hx.2⟩)
      · exact .inl (List.mem_append_right _ hx)
      · exact .inr rfl
    · intro q y hy hid
      rcases List.mem_append.mp hy with hy | hy
      · have hne := (List.mem_filter.mp hy).2
        simp only [ne_eq,decide_not,Bool.not_eq_true',decide_eq_false_iff_not] at hne
        exact absurd hid hne
      · have hL : ∀ q, ∀ y ∈ e.memory full q,
            y ∈ e.memory full item.attempt.signer ∨ y ∈ (e.workers q).places full := by
          intro q y hy
          exact (List.mem_append.mp hy).imp_left (List.mem_append_left _)
        exact hh.agrees_all hk hL hcond q y hy hid
  | false =>
    rw [hc] at hs
    cases hs
    -- nothing is written, but the item goes back with its new block
    simp only [Engine.others,hc,Bool.false_eq_true,if_false] at hcond
    refine h.place hh hk hcond ?_
    intro q x hx
    rcases hmem q x hx with hx | hx | rfl
    · exact .inl (List.mem_append_left _ hx)
    · exact .inl (List.mem_append_right _ hx)
    · exact .inr rfl

/-- A worker hands an item to the verifier and goes on with what it knew. -/
theorem Engine.submitted_places {w : Worker} {item : PendingConfirmation} {q : Address}
    (hw : ∀ x ∈ w.places full, x ∈ e.places full c p) (hx : x ∈ e'.places full c q)
    (hstore : e'.store = e.store) (hqueue : e'.queue = e.queue)
    (hpending : e'.pending = e.pending++[item]) (hmissing : e'.missing = e.missing)
    (hworkers : e'.workers = Function.update e.workers p w) :
    x ∈ e.places full c q ∨ x = (item.attempt.id,item.block) := by
  rw [mem_places,hstore,hqueue,hpending,hmissing,hworkers] at hx
  obtain hx | hx | ⟨i,hi,rfl⟩ | hx | hx := hx
  · exact .inl (mem_places.mpr (.inl hx))
  · exact .inl (mem_places.mpr (.inr (.inl hx)))
  · obtain hi | hi := List.mem_append.mp hi
    · exact .inl (Engine.pending_places hi)
    · rw [List.mem_singleton.mp hi]
      exact .inr rfl
  · exact .inl (mem_places.mpr (.inr (.inr (.inr (.inl hx)))))
  · by_cases hq : q = p
    · subst hq
      rw [Function.update_self] at hx
      exact .inl (hw x hx)
    · rw [Function.update_of_ne hq] at hx
      exact .inl (Engine.worker_places hx)

/-! ## One lemma for each step -/

theorem Engine.kept_pending (e : Engine) : ∀ i ∈ e.pending, ∀ q,
    (i.attempt.id,i.block) ∈ e.places full c q :=
  fun _ hi _ => Engine.pending_places hi

theorem Engine.kept_missing (e : Engine) : ∀ m, e.missing = some m → ∀ x ∈ m.places, ∀ q,
    x ∈ e.places full c q :=
  fun _ hm _ hx _ => Engine.missing_places hm hx

/-- What a flush or a confirmation at the end of the queue places. -/
theorem Engine.queue_push {op' : SettleOp} (h : op'.places = []) :
    ∀ op ∈ e.queue ++ [op'], op ∈ e.queue ∨ op.places = [] := by
  intro op hop
  rcases List.mem_append.mp hop with hop | hop
  · exact .inl hop
  · rw [List.mem_singleton.mp hop]
    exact .inr h

theorem Engine.Agrees.flushed (h : e.Agrees full c) {w : Waiter} {rest : List SettleOp}
    (hq : e.queue = .flush w :: rest) :
    ({ e with queue := rest, written := false }.signal w).Agrees full c := by
  have hpop : ∀ op ∈ rest, op ∈ e.queue ∨ op.places = [] := by
    intro op hop
    rw [hq]
    exact .inl (List.mem_cons_of_mem _ hop)
  cases w with
  | verifier =>
    refine h.others .refl (by simp) hpop e.kept_pending ?_ rfl
    intro m hm x hx
    obtain ⟨m',hm',rfl⟩ := Option.map_eq_some_iff.mp hm
    refine e.kept_missing m' hm' x ?_
    cases m' <;> exact hx
  | recovery p =>
    simp only [Engine.signal]
    split
    · exact h.worker .refl hpop rfl rfl rfl (by simp)
    · exact h.others .refl (by simp) hpop e.kept_pending e.kept_missing rfl

theorem Engine.Agrees.wrote (h : e.Agrees full c) {op : SettleOp} {rest queue : List SettleOp}
    {written : Bool} {st : Settled} {s : Store} (hq : e.queue = op :: rest)
    (hr : op.run e.store = .ok (st,s)) (hp : Engine.Popped e rest queue written) :
    { e with
      store := s
      queue := queue
      written := written
      log := op.notes s st ++ e.log }.Agrees full c := by
  refine h.others (SettleOp.rowStep hr) ?_ ?_ e.kept_pending e.kept_missing rfl
  · intro x hx
    exact ⟨_,by rw [hq]; exact List.mem_cons_self,hx⟩
  · intro op hop
    cases hp with
    | stays => exact .inl hop
    | gone => exact .inl (by rw [hq]; exact List.mem_cons_of_mem _ hop)

theorem Engine.Agrees.parked (h : e.Agrees full c) {op : SettleOp} {rest : List SettleOp}
    {parks : Bool} (hq : e.queue = op :: rest) :
    { e with
      queue := rest
      written := false
      deadLetters := if parks then op :: e.deadLetters else e.deadLetters }.Agrees full c := by
  refine h.others .refl (by simp) ?_ e.kept_pending e.kept_missing rfl
  intro op hop
  rw [hq]
  exact .inl (List.mem_cons_of_mem _ hop)

theorem Engine.Agrees.kept (h : e.Agrees full c) {i : Nat} {item : PendingConfirmation}
    (misses : Nat) (hi : e.pending[i]? = some item) :
    ({ e with pending := e.pending.eraseIdx i }.submit { item with misses := misses }).Agrees full
      c := by
  have hplace : ∀ q, (item.attempt.id,item.block) ∈ e.places full c q := fun q =>
     Engine.pending_places (List.mem_of_getElem? hi)
  refine h.others .refl (by simp) (fun _ => .inl) ?_ e.kept_missing rfl
  intro i hi q
  rcases List.mem_append.mp hi with hi | hi
  · exact Engine.pending_places (List.mem_of_mem_eraseIdx hi)
  · rw [List.mem_singleton.mp hi]
    exact hplace q

theorem Engine.Agrees.asked (h : e.Agrees full c) {i : Nat} {item : PendingConfirmation}
    (misses : Nat) (hi : e.pending[i]? = some item) :
    { e with
      pending := e.pending.eraseIdx i
      missing := some (.asking { item with misses := misses }) }.Agrees full c := by
  have hplace : ∀ q, (item.attempt.id,item.block) ∈ e.places full c q := fun q =>
     Engine.pending_places (List.mem_of_getElem? hi)
  refine h.others .refl (by simp) (fun _ => .inl) ?_ ?_ rfl
  · intro i hi q
    exact Engine.pending_places (List.mem_of_mem_eraseIdx hi)
  · intro m hm x hx q
    cases hm
    rw [List.mem_singleton.mp hx]
    exact hplace q

theorem Engine.Agrees.stayed (h : e.Agrees full c) {item : PendingConfirmation} (misses : Nat)
    (hm : e.missing = some (.asking item)) :
    ({ e with missing := none }.submit { item with misses := misses }).Agrees full c := by
  refine h.others .refl (by simp) (fun _ => .inl) ?_ (fun m hm => by cases hm) rfl
  intro i hi q
  rcases List.mem_append.mp hi with hi | hi
  · exact Engine.pending_places hi
  · rw [List.mem_singleton.mp hi]
    exact Engine.missing_places hm List.mem_cons_self

theorem Engine.Agrees.vanished (h : e.Agrees full c) {item : PendingConfirmation}
    (hm : e.missing = some (.asking item)) :
    ({ e with missing := some (.vanished item false) }.push (.flush .verifier)).Agrees full c := by
  refine h.others .refl (by simp) (Engine.queue_push rfl) e.kept_pending ?_ rfl
  intro m hm' x hx q
  cases hm'
  exact Engine.missing_places hm hx

theorem Engine.Agrees.moved (h : e.Agrees full c) {item : PendingConfirmation} {m : Inclusion} :
    ({ e with missing := some (.moved { item with
      misses := 0
      inclusion := { item.inclusion with
        blockNumber := m.blockNumber, blockHash := m.blockHash, receipt := m.receipt } }
      false) }.push (.flush .verifier)).Agrees full c := by
  refine h.others .refl (by simp) (Engine.queue_push rfl) e.kept_pending ?_ rfl
  intro m hm' x hx q
  cases hm'
  cases hx

theorem Engine.Agrees.rewritten (h : e.Agrees full c) (hh : Held c e) {item : PendingConfirmation}
    {call : Call} {s : Store} (hm : e.missing = some (.moved item true))
    (hs : Engine.Called e (updateInclusionBlock e.store item.attempt item.inclusion.blockNumber
      item.inclusion.blockHash item.inclusion.receipt) call.reaches s)
    (hcond : Engine.Event.Unambiguous full chain c e (.resolve call)) :
    ({ e with store := s, missing := none }.submit item).Agrees full c := by
  exact h.updated hh hm hs (hcond _ (Engine.placed_moved hm))

theorem Engine.Agrees.notUndone (h : e.Agrees full c) {item : PendingConfirmation} {call : Call}
    {s : Store} (hm : e.missing = some (.vanished item true))
    (hs : Engine.Called e (demoteInclusion e.store item.attempt).2 call.reaches s) :
    ({ e with
      store := s
      missing := none
      log := e.noted call item.attempt item.block ++ e.log }.submit item).Agrees full c := by
  refine h.others (hs.rowStep (RowStep.demote _ _ : RowStep c [] _ _)) (by simp) (fun _ => .inl) ?_
    (fun m hm => by cases hm) rfl
  intro i hi q
  rcases List.mem_append.mp hi with hi | hi
  · exact Engine.pending_places hi
  · rw [List.mem_singleton.mp hi]
    exact Engine.missing_places hm List.mem_cons_self

theorem Engine.Agrees.settled (h : e.Agrees full c) (hh : Held c e) {p : Address} {r : Receipt}
    {a : Attempt} {inc : Inclusion} {attempts : List Attempt} {todo : Option (List (List Attempt))}
    (hw : e.workers p = .driving attempts todo)
    (ha : attempts.find? (fun a => a.txHash = r.transactionHash) = some a)
    (hi : inclusionFrom chain a r = some inc)
    (hcond : Engine.Event.Unambiguous full chain c e (.receipt p r)) :
    ((e.push (.inclusion a inc
      (chain.confirmCheck = .immediate))).setWorker p (.settling a inc todo)).Agrees full c := by
  have hin : a ∈ (e.workers p).attempts := by
    rw [hw]
    exact List.mem_append_left _ (List.mem_of_find?_eq_some ha)
  obtain ⟨hk,hsig⟩ := hh.workers p a hin
  refine h.place hh hk (b := inc.stored) ?_ ?_
  · exact hcond _ (Engine.placed_receipt hw ha hi)
  · intro q x hx
    rcases mem_places.mp hx with hx | ⟨op,hop,hx⟩ | hx | hx | hx
    · exact .inl (mem_places.mpr (.inl hx))
    · rcases List.mem_append.mp hop with hop | hop
      · exact .inl (mem_places.mpr (.inr (.inl ⟨op,hop,hx⟩)))
      · rw [List.mem_singleton.mp hop] at hx
        exact .inr (List.mem_singleton.mp hx)
    · exact .inl (mem_places.mpr (.inr (.inr (.inl hx))))
    · exact .inl (mem_places.mpr (.inr (.inr (.inr (.inl hx)))))
    · by_cases hq : q = p
      · subst hq
        simp only [Engine.setWorker_workers,Function.update_self] at hx
        rcases List.mem_cons.mp hx with rfl | hx
        · exact .inr rfl
        · exact .inl (Engine.worker_places (by rw [hw]; exact hx))
      · simp only [Engine.setWorker_workers,Function.update_of_ne hq] at hx
        exact .inl (Engine.worker_places hx)

theorem Engine.Agrees.handedOver (h : e.Agrees full c) (hh : Held c e) {p : Address} {a : Attempt}
    {inc : Inclusion} {todo : Option (List (List Attempt))}
    (hw : e.workers p = .settling a inc todo) :
    ((((if chain.confirmCheck = .immediate then e else e.submit ⟨a,inc,0⟩).setPair
      p fun q => (q.resumeIf .stuckUnresolved).resumeIf .insufficientFunds).account
      .mined a).setWorker p (Engine.next todo)).Agrees full c := by
  have hold : ∀ x ∈ (Engine.next todo).places full, x ∈ e.places full c p := by
    intro x hx
    rw [Engine.next_places] at hx
    exact Engine.worker_places (by rw [hw]; exact List.mem_cons_of_mem _ hx)
  split
  · exact h.worker .refl (fun _ => .inl) rfl rfl rfl hold
  · obtain ⟨hk,hsig⟩ := hh.workers p a (by rw [hw]; exact List.mem_cons_self)
    refine h.place hh hk (b := inc.stored) ?_ ?_
    · intro y hy hid
      rw [hsig] at hy
      refine h p y hy (a.id,inc.stored) ?_ hid
      exact Engine.worker_places (by rw [hw]; exact List.mem_cons_self)
    · intro q x hx
      exact Engine.submitted_places hold hx rfl rfl rfl rfl rfl

theorem Engine.Agrees.voided (h : e.Agrees full c) {p : Address} {foreign : Bool}
    {attempts : List Attempt} {todo : Option (List (List Attempt))}
    (hw : e.workers p = .driving attempts todo) :
    ((e.setPair p fun q =>
      if foreign then q.requestRecovery else q).setWorker p (Engine.next todo)).Agrees full c := by
  refine h.worker .refl (fun _ => .inl) rfl rfl rfl ?_
  intro x hx
  rw [Engine.next_places] at hx
  exact Engine.worker_places (by rw [hw]; exact hx)

theorem Engine.Agrees.rebroadcast (h : e.Agrees full c) {p : Address} {group : List Attempt}
    {todo : List (List Attempt)} (hw : e.workers p = .recovering (group :: todo)) :
    ((e.setPair p Engine.pauseResending).setWorker p
      (Engine.resending group todo)).Agrees full c := by
  refine h.worker .refl (fun _ => .inl) rfl rfl rfl ?_
  intro x hx
  rw [Engine.resending_places] at hx
  refine Engine.worker_places ?_
  rw [hw]
  exact loadedPlaces_sub (fun a ha => List.mem_append_right _ ha) hx

theorem Engine.Agrees.gone (h : e.Agrees full c) {p : Address} {a : Attempt} {group : List Attempt}
    {todo : List (List Attempt)} (hw : e.workers p = .recovering (group :: todo))
    (ha : group.find? (fun a => a.status = .included) = some a) :
    (e.setWorker p (.demoting a group todo)).Agrees full c := by
  refine h.worker .refl (fun _ => .inl) rfl rfl rfl ?_
  intro x hx
  refine Engine.worker_places ?_
  rw [hw]
  rcases List.mem_append.mp hx with hx | hx
  · split at hx
    · next hf =>
      rw [List.mem_singleton.mp hx]
      exact mem_loadedPlaces.mpr ⟨hf,_,List.mem_append_left _ (List.mem_of_find?_eq_some ha),
        by simpa using List.find?_some ha,rfl⟩
    · cases hx
  · exact loadedPlaces_sub (fun a ha => List.mem_append_right _ ha) hx

theorem Engine.Agrees.resubmitted (h : e.Agrees full c) (hh : Held c e) {p : Address} {r : Receipt}
    {a : Attempt} {inc : Inclusion} {group : List Attempt} {todo : List (List Attempt)}
    (hw : e.workers p = .recovering (group :: todo))
    (ha : group.find? (fun a => a.status = .included) = some a)
    (hi : inclusionFrom chain a r = some inc) (hc : chain.confirmCheck ≠ .immediate)
    (hcond : Engine.Event.Unambiguous full chain c e (.look p (some (some r)))) :
    ((e.submit ⟨a,inc,0⟩).setWorker p (.recovering todo)).Agrees full c := by
  have hin : a ∈ (e.workers p).attempts := by
    rw [hw]
    exact List.mem_append_left _ (List.mem_of_find?_eq_some ha)
  obtain ⟨hk,hsig⟩ := hh.workers p a hin
  refine h.place hh hk (b := inc.stored) ?_ ?_
  · exact hcond _ (Engine.placed_look hw ha hi hc)
  · have hold : ∀ y ∈ (Worker.recovering todo).places full, y ∈ e.places full c p := by
      intro y hy
      refine Engine.worker_places ?_
      rw [hw]
      exact loadedPlaces_sub (fun a ha => List.mem_append_right _ ha) hy
    intro q x hx
    exact Engine.submitted_places hold hx rfl rfl rfl rfl rfl

theorem Engine.Agrees.confirmedAtOnce (h : e.Agrees full c) {p : Address} {a : Attempt}
    {inc : Inclusion} {group : List Attempt} {todo : List (List Attempt)}
    (hw : e.workers p = .recovering (group :: todo)) :
    (((e.push (.confirmation a inc.block)).account
      .confirmed a).setWorker p (.recovering todo)).Agrees full c := by
  refine h.worker .refl (Engine.queue_push rfl) rfl rfl rfl ?_
  intro x hx
  refine Engine.worker_places ?_
  rw [hw]
  exact loadedPlaces_sub (fun a ha => List.mem_append_right _ ha) hx

theorem Engine.Agrees.demoted (h : e.Agrees full c) {p : Address} {a : Attempt}
    {group : List Attempt} {todo : List (List Attempt)}
    (hw : e.workers p = .demoting a group todo) :
    ((({ e with
      store := (demoteInclusion e.store a).2
      log := e.store.demotion a a.block ++ e.log }.account .demoted a).setPair p
      Engine.pauseResending).setWorker p (Engine.resending group todo)).Agrees full c := by
  refine h.worker (.demote _ _) (fun _ => .inl) rfl rfl rfl ?_
  intro x hx
  rw [Engine.resending_places] at hx
  exact Engine.worker_places (by rw [hw]; exact List.mem_append_right _ hx)

theorem Engine.Agrees.restarted (h : e.Agrees full c) (manual : Address → Bool) :
    (e.restart manual).Agrees full c := by
  have hsame : RowStep c [] e.store (e.restart manual).store := .of_eq rfl
  refine h.of fun q => Engine.places_sub hsame (by simp) ?_ ?_ ?_ ?_
  · intro op hop
    cases hop
  · intro i hi
    cases hi
  · intro m hm
    cases hm
  · intro x hx
    cases hx

theorem Engine.Agrees.step (h : e.Agrees full c) (hh : Held c e) (hs : Engine.Step chain c e ev e')
    (hcond : ev.Unambiguous full chain c e) : e'.Agrees full c := by
  cases hs with
  | skip => exact h
  | op hi he =>
    exact h.others (.op hi he) (by simp) (fun _ => .inl) (fun _ hi _ => Engine.pending_places hi)
      (fun _ hm _ hx _ => Engine.missing_places hm hx) rfl
  | signalled hq => exact h.flushed hq
  | wrote _ hq _ hr hp => exact h.wrote hq hr hp
  | parked _ hq => exact h.parked hq
  | confirmed hm hi hv =>
    refine h.others .refl (by simp) (Engine.queue_push rfl) ?_ e.kept_missing rfl
    intro i hi q
    exact Engine.pending_places (List.mem_of_mem_eraseIdx hi)
  | kept misses _ hi => exact h.kept misses hi
  | asked misses _ hi => exact h.asked misses hi
  | stayed misses hm => exact h.stayed misses hm
  | vanished hm => exact h.vanished hm
  | moved => exact h.moved
  | updated hm hs => exact h.rewritten hh hm hs hcond
  | undone hm =>
    refine h.others (RowStep.demote _ _ : RowStep c [] _ _) (by simp) (fun _ => .inl) e.kept_pending
      ?_ rfl
    intro m hm
    cases hm
  | notUndone hm hs => exact h.notUndone hm hs
  | picked hw hp => exact h.worker .refl (fun _ => .inl) rfl rfl rfl (by simp)
  | boundFirst hw hc hs hm hb =>
    exact h.worker (.bind hb) (fun _ => .inl) rfl rfl rfl (by simp [loadedPlaces_nil])
  | boundMore hw hc hs hm hb =>
    refine h.worker (.bind hb) (fun _ => .inl) rfl rfl rfl ?_
    intro x hx
    exact Engine.worker_places (by rw [hw]; exact hx)
  | settled hw ha hi => exact h.settled hh hw ha hi hcond
  | handedOver hw => exact h.handedOver hh hw
  | dropped hw | stuck hw | needsRecovery hw | lookFailed hw | finished hw | unfinished hw =>
    exact h.worker .refl (fun _ => .inl) rfl rfl rfl (by simp)
  | voided hw => exact h.voided hw
  | recovering hw hr =>
    exact h.worker .refl (Engine.queue_push rfl) rfl rfl rfl (by simp)
  | loaded hw hl =>
    refine h.worker .refl (fun _ => .inl) rfl rfl rfl ?_
    intro x hx
    exact mem_places.mpr (.inl (loaded_places hl hx))
  | rebroadcast hw => exact h.rebroadcast hw
  | gone hw ha => exact h.gone hw ha
  | resubmitted hw ha hi hc => exact h.resubmitted hh hw ha hi hc hcond
  | confirmedAtOnce hw => exact h.confirmedAtOnce hw
  | demoted hw => exact h.demoted hw
  | notDemoted hw hs =>
    exact h.worker (hs.rowStep (RowStep.demote _ _ : RowStep c [] _ _)) (fun _ => .inl) rfl rfl rfl
      (by simp)
  | flags hf =>
    exact h.others .refl (by simp) (fun _ => .inl) (fun _ hi _ => Engine.pending_places hi)
      (fun _ hm _ hx _ => Engine.missing_places hm hx) rfl
  | restarted manual => exact h.restarted manual

/-! ## Demotions -/

/-- The demotion undid what its caller saw vanish. -/
def Note.Undoes : Note → Prop
  | demoted _ observed stored => stored ≠ [] ∧ ∀ b ∈ stored, b = observed
  | _ => True

theorem Store.demotion_undoes {a : Attempt} {observed : StoredBlock} (h : e.Agrees true c)
    (hk : a.KnownIn c e.store) (ho : ∃ q, (a.id,observed) ∈ e.places true c q) :
    ∀ n ∈ e.store.demotion a observed, n.Undoes := by
  intro n hn
  unfold Store.demotion at hn
  split at hn
  · next ha =>
    rw [List.mem_singleton.mp hn]
    obtain ⟨q,ho⟩ := ho
    rcases demoteInclusion_spec e.store a with hno | ⟨-,hd⟩
    · rw [hno] at ha
      cases ha
    · obtain ⟨r,hr,hid,hin,-⟩ := hd.gas
      have hmem : ∀ b, b ∈ e.store.attemptBlocks a ↔ b = r.block := by
        intro b
        simp only [Store.attemptBlocks,List.mem_map,List.mem_filter,decide_eq_true_eq]
        constructor
        · rintro ⟨r',⟨hr',hid'⟩,rfl⟩
          rw [id_unique hr' hr (hid'.trans hid.symm)]
        · rintro rfl
          exact ⟨r,⟨hr,hid⟩,rfl⟩
      have hchain : r.chainId = c :=
        (congrArg Slot.chainId (hk.names r hr hid).slot).trans hk.1
      have hplace : (a.id,r.block) ∈ e.places true c q :=
        mem_places.mpr (.inl (mem_storePlaces.mpr ⟨r,hr,hchain,hin,by rw [hid]⟩))
      refine ⟨List.ne_nil_of_mem ((hmem _).mpr rfl),?_⟩
      intro b hb
      rw [(hmem b).mp hb]
      exact h q _ hplace _ ho rfl
  · cases hn

theorem Engine.noted_undoes {a : Attempt} {observed : StoredBlock} {call : Call} (h : e.Agrees true c)
    (hk : a.KnownIn c e.store) (ho : ∃ q, (a.id,observed) ∈ e.places true c q) :
    ∀ n ∈ e.noted call a observed, n.Undoes := by
  intro n hn
  unfold Engine.noted at hn
  split at hn
  · exact Store.demotion_undoes h hk ho n hn
  · cases hn

theorem SettleOp.notes_undo {s : Store} {op : SettleOp} {st : Settled} :
    ∀ n ∈ op.notes s st, n.Undoes := by
  intro n hn
  cases op <;> cases st <;> simp_all [Note.Undoes]

/-- Every demotion of the step undoes what was observed. -/
theorem Engine.Agrees.log (h : e.Agrees true c) (hh : Held c e) (hs : Engine.Step chain c e ev e')
    (hl : ∀ n ∈ e.log, n.Undoes) : ∀ n ∈ e'.log, n.Undoes := by
  have hcons : ∀ m : Note, m.Undoes → ∀ n ∈ m :: e.log, n.Undoes := by
    intro m hm n hn
    rcases List.mem_cons.mp hn with rfl | hn
    · exact hm
    · exact hl n hn
  have happend : ∀ l : List Note, (∀ n ∈ l, n.Undoes) → ∀ n ∈ l ++ e.log, n.Undoes := by
    intro l h n hn
    rcases List.mem_append.mp hn with hn | hn
    · exact h n hn
    · exact hl n hn
  have hitem : ∀ item : PendingConfirmation, ∀ b, e.missing = some (.vanished item b) →
      item.attempt.KnownIn c e.store ∧ ∃ q, (item.attempt.id,item.block) ∈ e.places true c q := by
    intro item b hm
    exact ⟨hh.shared _ (mem_shared.mpr (.inr (.inr ⟨_,hm,rfl⟩))),0,
      Engine.missing_places hm List.mem_cons_self⟩
  have hworker : ∀ p a group todo, e.workers p = .demoting a group todo →
      a.KnownIn c e.store ∧ ∃ q, (a.id,a.block) ∈ e.places true c q := by
    intro p a group todo hw
    refine ⟨(hh.workers p a (by rw [hw]; exact List.mem_cons_self)).1,p,?_⟩
    exact Engine.worker_places (by rw [hw]; exact List.mem_cons_self)
  cases hs with
  | wrote hf hq hc hr hp => exact happend _ SettleOp.notes_undo
  | signalled hq =>
    next w rest call parks =>
    cases w with
    | verifier => exact hl
    | recovery p =>
      simp only [Engine.signal]
      split <;> exact hl
  | confirmed hm hi hv => exact hcons _ trivial
  | undone hm =>
    next item call =>
    obtain ⟨hk,ho⟩ := hitem item _ hm
    refine happend _ ?_
    intro n hn
    rcases List.mem_append.mp hn with hn | hn
    · split at hn
      · rw [List.mem_singleton.mp hn]
        trivial
      · cases hn
    · exact Store.demotion_undoes h hk ho n hn
  | notUndone hm hs =>
    next item call s =>
    obtain ⟨hk,ho⟩ := hitem item _ hm
    exact happend _ (Engine.noted_undoes h hk ho)
  | handedOver hw => split <;> exact hcons _ trivial
  | confirmedAtOnce hw ha hi hc => exact hcons _ trivial
  | demoted hw hc =>
    obtain ⟨hk,ho⟩ := hworker _ _ _ _ hw
    intro n hn
    rcases List.mem_cons.mp hn with rfl | hn
    · trivial
    · exact happend _ (Store.demotion_undoes h hk ho) n hn
  | notDemoted hw hs =>
    obtain ⟨hk,ho⟩ := hworker _ _ _ _ hw
    exact happend _ (Engine.noted_undoes h hk ho)
  | restarted manual => exact hcons _ trivial
  | _ => exact hl

theorem Engine.Agrees.init : Engine.init.Agrees true c := by
  intro q x hx
  cases hx

end Agreement

/-- As long as no attempt is placed in a block while something else still has it in another
one, every demotion undoes the inclusion that was seen to vanish. -/
theorem demotions_undo_observed {chain : ChainCtx} {c : ChainId} {e : Engine}
    (h : ((confirmation chain c).restrict fun e ev => ev.Unambiguous true chain c e).Reaches
      Engine.init e) : ∀ n ∈ e.log, n.Undoes := by
  have hall : Held c e ∧ e.Agrees true c ∧ ∀ n ∈ e.log, n.Undoes := by
    refine h.invariant (I := fun e => Held c e ∧ e.Agrees true c ∧ ∀ n ∈ e.log, n.Undoes)
      ⟨.init,.init,fun n hn => by cases hn⟩ ?_
    rintro e ev ⟨hh,ha,hl⟩ ⟨hp,hcond⟩
    have hs : Engine.Step chain c e ev (e.step chain c ev) := .of_possible hp
    exact ⟨hh.step hs,ha.step hh hs hcond,ha.log hh hs hl⟩
  exact hall.2.2

namespace Sample

/-- Another block stands at every height. -/
def otherFork : View := ⟨fun n => some ⟨n,99,[]⟩,none⟩

/-- The pair of signer 9 finds nothing in flight and takes a job. -/
def started : List Engine.Event :=
  [.op (.insertJob 1 request),.recover 9,.write .answered true,.load 9,.finish 9 true false,.pick 9,
    .bound 9 0 (attempt 3 0 .job (.job 1)) .first]

/-- Its transaction is mined in block 10 and the inclusion is stored. -/
def included : List Engine.Event :=
  started ++ [.receipt 9 (receipt 3 10 100),.handOver 9,.write .answered true]

/-- Two checks miss it, and there is no receipt. -/
def vanished : List Engine.Event :=
  included ++ [.check 0 otherFork,.check 0 otherFork,.lookup (some none),.write .answered true]

/-- The verifier undoes the inclusion. -/
def undone : List Engine.Event := vanished ++ [.resolve .answered]

/-- Recovery undoes it first and settles the transaction again, in block 11; then the
verifier writes. -/
def overtaken : List Engine.Event :=
  vanished ++ [.requestRecovery 9,.recover 9,.write .answered true,.load 9,.look 9 (some none),
    .undo 9 .answered,.receipt 9 (receipt 3 11 101),.handOver 9,.write .answered true,
    .resolve .answered]

end Sample

theorem demotions_undo_observed_vanished :
    ∃ e, ((confirmation Sample.ethereum 1).restrict
        fun e ev => ev.Unambiguous true Sample.ethereum 1 e).Reaches Engine.init e ∧
      .demoted (Sample.attempt 3 0 .job (.job 1)) (some 10,some 100) [(some 10,some 100)] ∈ e.log ∧
      ∀ n ∈ e.log, n.Undoes := by
  have hrun : ((confirmation Sample.ethereum 1).restrict
      fun e ev => ev.Unambiguous true Sample.ethereum 1 e).Runs Engine.init Sample.undone := by
    decide +kernel
  exact ⟨_,hrun.reaches,by decide +kernel,demotions_undo_observed hrun.reaches⟩

/-- The inclusion in block 11 is undone for having vanished from block 10. -/
theorem demotion_undoes_later :
    ∃ e, (confirmation Sample.ethereum 1).Reaches Engine.init e ∧ ¬ ∀ n ∈ e.log, n.Undoes := by
  have hrun : (confirmation Sample.ethereum 1).Runs Engine.init Sample.overtaken := by
    decide +kernel
  refine ⟨_,hrun.reaches,?_⟩
  intro hall
  have hn : .demoted (Sample.attempt 3 0 .job (.job 1)) (some 10,some 100) [(some 11,some 101)] ∈
      (Sample.overtaken.foldl (confirmation Sample.ethereum 1).step Engine.init).log := by
    decide +kernel
  have hbad := (hall _ hn).2 (some 11,some 101) List.mem_cons_self
  simp at hbad

end GumEngine
