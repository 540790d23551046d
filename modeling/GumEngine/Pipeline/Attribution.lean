import GumEngine.Pipeline.Calls

/-!
# Whose attempts are at hand

Every attempt the task of a pair works on, those it loads after a restart included, was committed
for the owner of its nonce, with the same signed terms. A nonce changes hands only after everything
at it was dropped.
-/

namespace GumEngine
open Relational Transition

/-! ## Attempts in memory -/

/-- `a` is the attempt `b` as it was committed, with all that was signed. -/
structure Attempt.Repeats (a b : Attempt) : Prop extends Attempt.Copies a b where
  purpose : a.purpose = b.purpose
  gasLimit : a.gasLimit = b.gasLimit
  value : a.value = b.value

theorem Attempt.Repeats.rfl' (a : Attempt) : a.Repeats a := ⟨.rfl' a,rfl,rfl,rfl⟩

/-- Neither mined nor lost to another attempt of the nonce. -/
def AttemptRow.Unsettled (r : AttemptRow) : Prop := r.status = .broadcast ∨ r.status = .dropped

/-- Nothing at the nonce was mined. -/
def Store.Unsettled (s : Store) (k : Slot) : Prop :=
  ∀ r ∈ s.txAttempts.rows, r.slot = k → r.Unsettled

/-- `o` has the nonce, or nobody. -/
def Store.Reserves (s : Store) (k : Slot) (o : SlotOwner) : Prop :=
  s.holder k = none ∨ s.holder k = some o.key

/-- `a` was committed for `o`, and no other has its nonce. -/
structure World.Keeps (w : World) (o : SlotOwner) (a : Attempt) : Prop where
  owner : a.owner = o
  committed : ∃ b ∈ w.bound, a.Repeats b
  reserved : w.store.Reserves a.slot o

/-- What the task of `p` works on is its owner's. -/
structure Activity.Owned (t : Activity) (w : World) (p : PairKey) : Prop where
  held : ∀ f ∈ t.inFlight, ∀ a ∈ f.attempts, w.Keeps f.owner a
  todo : ∀ g ∈ t.todo, ∃ o, ∀ a ∈ g, w.Keeps o a
  again : ∀ goal a left, t = .binding goal a left → ∀ f ∈ goal.inFlight, a.owner = f.owner
  first : ∀ a left, t = .binding .execute a left → a ∈ w.bound →
    w.store.Reserves a.slot a.owner ∧ w.store.Unsettled a.slot
  fresh : ∀ f ∈ t.inFlight, f.neverAccepted = true → w.store.Unsettled (p.slot f.nonce)

/-- Rows and committed attempts agree in all that is signed, and a row that is not dropped has
its nonce. -/
structure Rooted (w : World) : Prop where
  columns : ∀ c ∈ w.store.columns, ∃ b ∈ w.bound, c = (AttemptRow.ofAttempt b).columns
  rows : ∀ r ∈ w.store.txAttempts.rows, r.status ≠ .dropped →
    w.store.holder r.slot = r.owner.map SlotOwner.key

section Effects

variable {w : World} {p : PairKey} {s : Store} {t : Activity} {c : Tally} {k : Slot}

theorem Store.Unsettled.bind {s' : Store} {epoch : Int} {a : Attempt} {kind : BindKind}
    (h : s.Unsettled k) (hb : Bound s epoch a kind s') : s'.Unsettled k := by
  intro r hr hk
  rw [hb.attempts] at hr
  rcases List.mem_append.mp hr with hr | hr
  · exact h r hr hk
  · rw [List.mem_singleton.mp hr]
    exact .inl rfl

theorem Store.Unsettled.map {s' : Store} {F : AttemptRow → AttemptRow} (h : s.Unsettled k)
    (hF : ∀ r, (F r).slot = r.slot) (hst : ∀ r ∈ s.txAttempts.rows, r.slot = k → r.Unsettled →
      (F r).Unsettled) (hm : s'.txAttempts.rows = s.txAttempts.rows.map F) : s'.Unsettled k := by
  intro x hx hk
  obtain ⟨r,hr,rfl⟩ := List.mem_map.mp (hm ▸ hx)
  rw [hF] at hk
  exact hst r hr hk (h r hr hk)

theorem Store.Unsettled.void {s' : Store} {epoch : Int} {a : Attempt} {mode : VoidMode}
    {disposition : VoidDisposition} {now : Nat} (h : s.Unsettled k)
    (hv : Voids s epoch a mode disposition now s') : s'.Unsettled k := by
  refine h.map (fun r => (dropRow_same _ r).slot) ?_ hv.attempts
  intro r _ _ hr
  unfold AttemptRow.Unsettled
  rw [dropRow_status]
  split
  · exact .inr rfl
  · exact hr

theorem Store.Unsettled.demote (h : s.Unsettled k) (a : Attempt) :
    (demoteInclusion s a).2.Unsettled k := by
  rcases demoteInclusion_spec s a with heq | ⟨-,hd⟩
  · rwa [heq]
  · refine h.map (fun r => (demoteRow_same a r).slot) ?_ hd.attempts
    intro r _ _ hr
    unfold AttemptRow.Unsettled
    rw [demoteRow_status]
    split
    · exact .inl rfl
    · exact hr

/-- No move of a task settles anything. -/
theorem Turned.unsettled (h : Turned w p s t c) (hk : w.store.Unsettled k) : s.Unsettled k := by
  cases h with
  | stays => exact hk
  | rests ht hr => exact hk
  | goes hf ht hr => exact hk
  | signs hr => exact hk
  | signsAgain hf hg => exact hk
  | binds hp hs ht =>
    rcases hs with ⟨rfl,-⟩ | ⟨hb,-⟩
    · exact hk
    · exact hk.bind (bindAttempt_spec hb)
  | voids hp hs ht hr =>
    rcases hs with ⟨rfl,-⟩ | ⟨hv,-⟩
    · exact hk
    · exact hk.void (voidBinding_spec hv)
  | loads hin hl => exact hk
  | walks hp hs ht =>
    rcases hs with rfl | ⟨a,rfl⟩
    · exact hk
    · exact hk.demote a
  | ends hp ht => exact hk

/-- The void at hand gives the nonce back. -/
def World.Frees (w : World) (p : PairKey) (s : Store) (c : Tally) (k : Slot) : Prop :=
  ∃ f disposition now, w.tasks p = .voiding f .nonceUnused disposition ∧ k = f.last.slot ∧
    c = .gave k ∧ Voids w.store w.epoch f.last .nonceUnused disposition now s

/-- A nonce changes hands by a first bind of its own pair, or is given back. -/
theorem Turned.holder (h : Turned w p s t c) (k : Slot) :
    s.holder k = w.store.holder k ∨ s.holder k = none ∧ w.Frees p s c k ∨
      ∃ a left, w.tasks p = .binding .execute a left ∧ k = a.slot ∧
        Bound w.store w.epoch a .first s := by
  cases h with
  | stays => exact .inl rfl
  | rests ht hr => exact .inl rfl
  | goes hf ht hr => exact .inl rfl
  | signs hr => exact .inl rfl
  | signsAgain hf hg => exact .inl rfl
  | @binds goal a left s t c hp hs ht =>
    rcases hs with ⟨rfl,-⟩ | ⟨hb,-⟩
    · exact .inl rfl
    · have hbound := bindAttempt_spec hb
      cases goal with
      | execute =>
        by_cases hk : k = a.slot
        · exact .inr (.inr ⟨a,left,hp,hk,hbound⟩)
        · exact .inl (hbound.claims.2.2 k hk)
      | replace f => exact .inl ((hbound.again (by simp [Goal.kind])).2 k)
      | cancel f => exact .inl ((hbound.again (by simp [Goal.kind])).2 k)
  | @voids f mode disposition now s t c hp hs ht hr =>
    rcases hs with ⟨rfl,-⟩ | ⟨hv,hc⟩
    · exact .inl rfl
    · have hvoid := voidBinding_spec hv
      rcases hvoid.releases k with h | ⟨rfl,rfl,h⟩
      · exact .inl h
      · exact .inr (.inl ⟨h,f,disposition,now,hp,rfl,hc,hvoid⟩)
  | loads hin hl => exact .inl rfl
  | walks hp hs ht =>
    rcases hs with rfl | ⟨a,rfl⟩
    · exact .inl rfl
    · exact .inl (Store.holder_same (demoteInclusion_slots _ a) k)
  | ends hp ht => exact .inl rfl

theorem Store.Reserves.yields {s' : Store} {o : SlotOwner} (h : s.Reserves k o)
    (hk : s'.holder k = s.holder k ∨ s'.holder k = none) : s'.Reserves k o := by
  rcases hk with hk | hk
  · rw [Store.Reserves,hk]
    exact h
  · exact .inl hk

theorem World.Keeps.mono {w' : World} {o : SlotOwner} {a : Attempt} (h : w.Keeps o a)
    (hb : ∀ x ∈ w.bound, x ∈ w'.bound)
    (hk : w'.store.holder a.slot = w.store.holder a.slot ∨ w'.store.holder a.slot = none) :
    w'.Keeps o a := by
  obtain ⟨b,hmem,hrep⟩ := h.committed
  exact ⟨h.owner,⟨b,hb b hmem,hrep⟩,h.reserved.yields hk⟩

end Effects

/-- The committed attempts after a move. -/
def Tally.bound (l : List Attempt) (pending : Option Attempt) : Tally → List Attempt
  | .took _ => pending.toList ++ l
  | .kept | .gave _ => l

section Committed

variable {w : World} {p : PairKey}

theorem World.written_bound (w : World) (a : Attempt) (kind : BindKind) (r : Round) :
    (w.written a kind r).bound =
      (if r.call.commits w.store w.epoch a kind then Tally.took a.slot else .kept).bound
        w.bound (some a) := by
  unfold World.written
  split
  · rfl
  · rfl

theorem World.round_bound (w : World) (p : PairKey) (goal : Goal) (a : Attempt) (left : Nat)
    (r : Round) : (w.round p goal a left r).bound = (w.written a goal.kind r).bound := by
  unfold World.round
  dsimp only
  split
  · rfl
  · rfl
  · split
    · rfl
    · rfl

theorem World.void_bound (w : World) (p : PairKey) (f : InFlight) (mode : VoidMode)
    (disposition : VoidDisposition) (call : Call) (now : Nat) :
    (w.void p f mode disposition call now).bound = w.bound := by
  unfold World.void
  dsimp only
  split
  · split
    · rfl
    · rfl
  · rfl
  · rfl

theorem World.recover_bound (w : World) (p : PairKey) : (w.recover p).bound = w.bound := by
  unfold World.recover
  split
  · rfl
  · rfl

theorem World.recoverNext_bound (w : World) (chain : ChainKind) (p : PairKey)
    (group : List Attempt) (todo : List (List Attempt)) (l : Look) :
    (w.recoverNext chain p group todo l).bound = w.bound := by
  unfold World.recoverNext
  split
  · rfl
  · cases l with
    | receipt => rfl
    | failed => rfl
    | gone call =>
      dsimp only
      split
      · rfl
      · rfl

end Committed

/-- A bind that commits is the only move that adds to the committed attempts. -/
theorem World.turn_bound (chains : ChainId → ChainKind) (w : World) (p : PairKey) (i : Input) :
    (w.turn chains p i).bound = (w.tally p i).bound w.bound (w.tasks p).pending := by
  have htakes := w.turn_takes chains p i
  generalize w.turn chains p i = w' at htakes ⊢
  cases htakes with
  | unfit hround hvoid =>
    rw [World.tally_unfit hround hvoid]
    rfl
  | @execute owner signed hp =>
    cases signed with
    | error e => rfl
    | ok g => rfl
  | @round r goal a left hp =>
    simp only [World.tally,hp]
    rw [World.round_bound]
    exact w.written_bound a goal.kind r
  | @void call now f mode disposition hp =>
    rw [World.void_bound]
    simp only [World.tally,hp]
    split
    · rfl
    · rfl
  | recover hp => exact w.recover_bound p
  | recoverNext hp => exact w.recoverNext_bound _ p _ _ _
  | _ => rfl

section Owned

variable {w w' : World} {p : PairKey} {t : Activity} {c : Tally} {f : InFlight}

theorem Activity.Rests.owned (h : t.Rests) (w : World) (p : PairKey) : t.Owned w p := by
  refine ⟨?_,?_,?_,?_,?_⟩
  · exact fun f hf => absurd hf h.no_inFlight
  · intro g hg
    rw [h.todo] at hg
    cases hg
  · rintro goal a left rfl
    cases h.free
  · rintro a left rfl
    cases h.free
  · exact fun f hf => absurd hf h.no_inFlight

/-- Only an activity that binds a first attempt has nothing to lose by a claim. -/
theorem Activity.no_first (hf : f ∈ t.inFlight) (a : Attempt) (left : Nat) :
    t ≠ .binding .execute a left := by
  rintro rfl
  cases hf

/-- Another pair's task, or one that claims nothing, keeps what it works on. -/
theorem Activity.Owned.mono (h : t.Owned w p) (hb : ∀ b ∈ w.bound, b ∈ w'.bound)
    (hpend : ∀ a left, t = .binding .execute a left → a ∈ w'.bound → a ∈ w.bound)
    (hy : ∀ n, w'.store.holder (p.slot n) = w.store.holder (p.slot n) ∨
      w'.store.holder (p.slot n) = none)
    (hu : ∀ n, w.store.Unsettled (p.slot n) → w'.store.Unsettled (p.slot n))
    (hown : t.Own p) : t.Owned w' p := by
  refine ⟨?_,?_,h.again,?_,?_⟩
  · intro f hf a ha
    refine (h.held f hf a ha).mono hb ?_
    rw [hown.held f hf a ha]
    exact hy f.nonce
  · intro g hg
    obtain ⟨o,ho⟩ := h.todo g hg
    obtain ⟨n,hn⟩ := hown.todo g hg
    refine ⟨o,fun a ha => (ho a ha).mono hb ?_⟩
    rw [hn a ha]
    exact hy n
  · rintro a left rfl ha
    obtain ⟨hres,huns⟩ := h.first a left rfl (hpend a left rfl ha)
    have hslot := hown.pending a rfl
    rw [hslot] at hres huns ⊢
    exact ⟨hres.yields (hy a.nonce),hu a.nonce huns⟩
  · exact fun f hf hfresh => hu f.nonce (h.fresh f hf hfresh)

theorem Activity.From.owned (h : t.From f) {t₀ : Activity} (hf : f ∈ t₀.inFlight)
    (h₀ : t₀.Owned w p) : t.Owned w p := by
  refine ⟨?_,?_,?_,?_,?_⟩
  · intro f' hf' a ha
    have hl := h.inFlight f' hf'
    rw [hl.attempts] at ha
    rw [hl.owner]
    exact h₀.held f hf a ha
  · intro g hg
    refine h₀.todo g ?_
    rw [Activity.todo_of_inFlight hf]
    exact h.todo g hg
  · rintro goal a left rfl
    cases h.free
  · rintro a left rfl
    cases h.free
  · intro f' hf' hfresh
    have hl := h.inFlight f' hf'
    rw [hl.nonce]
    exact h₀.fresh f hf (hl.fresh hfresh)

end Owned

section Turns

variable {w w' : World} {p : PairKey} {t : Activity} {c : Tally} {f : InFlight}

/-- What is loaded is what was committed. -/
theorem Rooted.loaded (h : Rooted w) (ht : Traced w) {r : AttemptRow} {a : Attempt}
    (hr : r ∈ w.store.txAttempts.rows) (hlive : r.live) (hrow : attemptRow r = .ok a) :
    ∃ b ∈ w.bound, a.Repeats b := by
  obtain ⟨b,hb,hid,hof,hraw⟩ := ht.rows r hr
  obtain ⟨b',hb',hcols⟩ := h.columns r.columns (List.mem_map_of_mem hr)
  have hid' : r.id = b'.id := congrArg AttemptRow.id hcols
  obtain rfl := ht.distinct b hb b' hb' (hid.symm.trans hid')
  obtain ⟨hpur,hgas,hval⟩ := attemptRow_terms hrow
  refine ⟨b,hb,.of_row hid hof (hraw hlive) hrow,?_,?_,?_⟩
  · exact hpur.trans hof.purpose
  · exact hgas.trans (congrArg AttemptRow.gasLimit hcols)
  · exact hval.trans (congrArg AttemptRow.value hcols)

/-- The attempts loaded for a nonce are of one owner, who has it. -/
theorem Rooted.loads (h : Rooted w) (ht : Traced w) {live g : List Attempt}
    (hl : loadLiveAttemptsFor w.store p.chainId p.signer = .ok live) (hg : g ∈ byNonce live) :
    ∃ o, ∀ a ∈ g, w.Keeps o a := by
  obtain ⟨n,hn⟩ := byNonce_mem hg
  have hrow : ∀ a ∈ g, (∃ b ∈ w.bound, a.Repeats b) ∧
      w.store.holder (p.slot n) = some a.owner.key := by
    intro a ha
    obtain ⟨hmem,hnonce⟩ := hn a ha
    obtain ⟨r,hr,hlive,-,-,hrow⟩ := loadLive_mem hl hmem
    have hslot := loadLive_slot hl hmem
    rw [hnonce,attemptRow_slot hrow] at hslot
    have hkept : r.status ≠ .dropped := by
      rcases hlive with hst | hst
      · rw [hst]
        decide
      · rw [hst]
        decide
    refine ⟨h.loaded ht hr hlive hrow,?_⟩
    rw [← hslot,h.rows r hr hkept,(attemptRow_ok hrow).1]
    rfl
  cases g with
  | nil => exact ⟨.job 0,fun a ha => by cases ha⟩
  | cons x g =>
    refine ⟨x.owner,fun a ha => ?_⟩
    obtain ⟨hrep,hholder⟩ := hrow a ha
    have hown : a.owner = x.owner :=
      SlotOwner.key_inj (Option.some.inj (hholder.symm.trans (hrow x List.mem_cons_self).2))
    refine ⟨hown,hrep,.inr ?_⟩
    have hslot : a.slot = p.slot n := (hn a ha).2 ▸ loadLive_slot hl (hn a ha).1
    rw [hslot,hholder,hown]

/-- An owner whose nonce is found under his id has it himself. -/
theorem Store.Reserves.holds {s : Store} {k : Slot} {o : SlotOwner} (h : s.Reserves k o)
    {x : OwnerKind × Uuid} (hx : s.holder k = some x) : s.holder k = some o.key := by
  rcases h with h | h
  · rw [h] at hx
    cases hx
  · exact h

/-- At a free nonce everything is dropped. -/
theorem Rooted.unsettled (h : Rooted w) {k : Slot} (hk : w.store.holder k = none)
    (ho : ∀ r ∈ w.store.txAttempts.rows, r.owner.isSome = true) : w.store.Unsettled k := by
  intro r hr hslot
  by_contra hst
  have hkept : r.status ≠ .dropped := fun hd => hst (.inr hd)
  have hheld := h.rows r hr hkept
  rw [hslot,hk] at hheld
  obtain ⟨o,hro⟩ := Option.isSome_iff_exists.mp (ho r hr)
  rw [hro] at hheld
  cases hheld

theorem Traced.owners (ht : Traced w) (r : AttemptRow) (hr : r ∈ w.store.txAttempts.rows) :
    r.owner.isSome = true := by
  obtain ⟨b,-,-,hof,-⟩ := ht.rows r hr
  unfold AttemptRow.owner
  rw [hof.jobId,hof.topupId]
  cases b.owner with
  | job id => rfl
  | topup id => rfl

theorem Goal.kind_again {goal : Goal} (h : goal.inFlight = some f) : goal.kind ≠ .first := by
  cases goal with
  | execute => cases h
  | replace g => simp [Goal.kind]
  | cancel g => simp [Goal.kind]

/-- A further attempt sits where the others of its nonce do. -/
theorem Activity.Own.again_slot {goal : Goal} {a : Attempt} {left : Nat}
    (h : (Activity.binding goal a left).Own p) (hf : goal.inFlight = some f) :
    f.last.slot = a.slot := by
  rw [h.held f hf f.last f.last_mem,← h.again goal a left rfl f hf,h.pending a rfl]

/-- A committed bind of the attempt at hand: the nonce is its owner's. -/
theorem Activity.Owned.committed {goal : Goal} {a : Attempt} {left : Nat} {s : Store}
    (h₀ : (Activity.binding goal a left).Owned w p) (hown : (Activity.binding goal a left).Own p)
    (hb : Bound w.store w.epoch a goal.kind s) : s.holder a.slot = some a.owner.key := by
  cases hg : goal.inFlight with
  | none =>
    cases goal with
    | execute => exact hb.claims.2.1
    | replace f => cases hg
    | cancel f => cases hg
  | some f =>
    obtain ⟨⟨x,hx⟩,hsame⟩ := hb.again (Goal.kind_again hg)
    have hkeeps := (h₀.held f hg f.last f.last_mem).reserved
    rw [hown.again_slot hg] at hkeeps
    rw [hsame,h₀.again goal a left rfl f hg]
    exact hkeeps.holds hx

/-- A first bind finds nothing at its nonce but what was dropped. -/
theorem Rooted.claims (h : Rooted w) (ht : Traced w) {a : Attempt} {s : Store}
    (hb : Bound w.store w.epoch a .first s) : s.Unsettled a.slot :=
  (h.unsettled hb.claims.1 ht.owners).bind hb

/-- The nonce in flight once an attempt is bound. -/
theorem Activity.Owned.bound {goal : Goal} {a : Attempt} {left : Nat}
    (h : (Activity.binding goal a left).Owned w p) (hown : (Activity.binding goal a left).Own p)
    (ha : a ∈ w.bound) (hfirst : goal = .execute → w.store.Reserves a.slot a.owner ∧
      w.store.Unsettled a.slot) : (Activity.sending (goal.bound a)).Owned w p := by
  have hjoined : ∀ f, goal.inFlight = some f → ∀ b ∈ f.attempts ++ [a], w.Keeps f.owner b := by
    intro f hf b hb
    rcases List.mem_append.mp hb with hb | hb
    · exact h.held f hf b hb
    · obtain rfl : b = a := List.mem_singleton.mp hb
      refine ⟨h.again goal b left rfl f hf,⟨b,ha,.rfl' b⟩,?_⟩
      rw [← hown.again_slot hf]
      exact (h.held f hf f.last f.last_mem).reserved
  refine ⟨?_,?_,?_,?_,?_⟩
  · rintro f' ⟨⟩
    cases goal with
    | execute =>
      intro b hb
      obtain rfl : b = a := List.mem_singleton.mp hb
      exact ⟨rfl,⟨b,ha,.rfl' b⟩,(hfirst rfl).1⟩
    | replace f => exact hjoined f rfl
    | cancel f => exact hjoined f rfl
  · cases goal with
    | execute => rintro g ⟨⟩
    | replace f => exact h.todo
    | cancel f => exact h.todo
  · rintro goal' b left' ⟨⟩
  · rintro b left' ⟨⟩
  · rintro f' ⟨⟩ hfresh
    cases goal with
    | execute =>
      show w.store.Unsettled (p.slot a.nonce)
      rw [← hown.pending a rfl]
      exact (hfirst rfl).2
    | replace f => exact h.fresh f rfl hfresh
    | cancel f => exact h.fresh f rfl hfresh

theorem Activity.Owned.resume {chain : ChainKind} {group : List Attempt} {todo : List (List Attempt)}
    (hg : ∃ o, ∀ a ∈ group, w.Keeps o a) (ht : ∀ g ∈ todo, ∃ o, ∀ a ∈ g, w.Keeps o a) :
    (resume chain group todo).Owned w p := by
  obtain ⟨hfree,-,htodo⟩ := resume_pending chain group todo
  obtain ⟨o,ho⟩ := hg
  refine ⟨?_,?_,?_,?_,?_⟩
  · intro f hf a ha
    rcases resume_cases chain group todo with h | ⟨f',h,-,-,-,⟨x,hx,hxo⟩,hcop⟩
    · rw [h] at hf
      cases hf
    · rw [h] at hf
      obtain rfl : f' = f := Option.some.inj hf
      have hfo : f'.owner = o := by
        obtain ⟨y,hy,rfl⟩ := hcop x hx
        rw [← hxo]
        exact (ho y hy).owner
      obtain ⟨y,hy,rfl⟩ := hcop a ha
      obtain ⟨b,hb,hrep⟩ := (ho y hy).committed
      rw [hfo]
      exact ⟨(ho y hy).owner,⟨b,hb,⟨hrep.id,hrep.slot,hrep.owner,hrep.txHash,hrep.rawTx⟩,
        hrep.purpose,hrep.gasLimit,hrep.value⟩,(ho y hy).reserved⟩
  · rw [htodo]
    exact ht
  · intro goal a left hb
    rw [hb] at hfree
    cases hfree
  · intro a left hb
    rw [hb] at hfree
    cases hfree
  · intro f hf hfresh
    rcases resume_cases chain group todo with h | ⟨f',h,hnever,-⟩
    · rw [h] at hf
      cases hf
    · rw [h] at hf
      cases hf
      rw [hnever] at hfresh
      cases hfresh

/-- What a world keeps from before a move. -/
structure World.Extends (w w' : World) (c : Tally) (p : PairKey) : Prop where
  bound : w'.bound = c.bound w.bound (w.tasks p).pending
  sent : ∀ goal a left, w.tasks p = .binding goal a left →
    w'.tasks p = .sending (goal.bound a) → a ∈ w'.bound
  fresh : ∀ a, (w'.tasks p).pending = some a → (w.tasks p).pending = some a ∨ a ∉ w'.bound

theorem World.Extends.mem (h : w.Extends w' c p) {b : Attempt} (hb : b ∈ w.bound) :
    b ∈ w'.bound := by
  rw [h.bound]
  cases c with
  | kept => exact hb
  | took k => exact List.mem_append_right _ hb
  | gave k => exact hb

end Turns

section Moves

variable {w w' : World} {p : PairKey} {t : Activity} {c : Tally} {f : InFlight} {s : Store}

theorem Activity.inFlight_voiding {mode : VoidMode} {disposition : VoidDisposition}
    (h : t = .voiding f mode disposition) : f ∈ t.inFlight := by
  rw [h]
  rfl

/-- A bind under way, whatever is left of its tries. -/
theorem Activity.Owned.binding {goal : Goal} {a : Attempt} {left : Nat}
    (hfirst : goal = .execute → a ∈ w.bound →
      w.store.Reserves a.slot a.owner ∧ w.store.Unsettled a.slot)
    (hold : goal ≠ .execute → (Activity.binding goal a left).Owned w p) (n : Nat) :
    (Activity.binding goal a n).Owned w p := by
  cases goal with
  | execute =>
    refine ⟨?_,?_,?_,?_,?_⟩
    · rintro f ⟨⟩
    · rintro g ⟨⟩
    · rintro goal a left ⟨⟩ f ⟨⟩
    · rintro a left ⟨⟩ ha
      exact hfirst rfl ha
    · rintro f ⟨⟩
  | replace f =>
    have hold := hold (by rintro ⟨⟩)
    refine ⟨hold.held,hold.todo,?_,?_,hold.fresh⟩
    · rintro goal a left ⟨⟩
      exact hold.again _ _ _ rfl
    · rintro a left ⟨⟩
  | cancel f =>
    have hold := hold (by rintro ⟨⟩)
    refine ⟨hold.held,hold.todo,?_,?_,hold.fresh⟩
    · rintro goal a left ⟨⟩
      exact hold.again _ _ _ rfl
    · rintro a left ⟨⟩

/-- A nonce is signed for once more. -/
theorem Activity.Owned.signed {goal : Goal} {purpose : AttemptPurpose} {g : Signature}
    (hold : t.Owned w p) (hf : f ∈ t.inFlight) (hg : goal.inFlight = some f) :
    (Activity.binding goal (sign p f.owner f.nonce purpose g) 5).Owned w p := by
  have hin : f ∈ (Activity.binding goal (sign p f.owner f.nonce purpose g) 5).inFlight := hg
  refine ⟨?_,?_,?_,?_,?_⟩
  · intro f' hf'
    obtain rfl : f = f' := Option.some.inj (hg.symm.trans hf')
    exact hold.held f hf
  · intro g' hg'
    rw [Activity.todo_of_inFlight hin,← Activity.todo_of_inFlight hf] at hg'
    exact hold.todo g' hg'
  · rintro goal a left ⟨⟩ f' hf'
    obtain rfl : f = f' := Option.some.inj (hg.symm.trans hf')
    rfl
  · rintro a left ⟨⟩
    cases hg
  · intro f' hf'
    obtain rfl : f = f' := Option.some.inj (hg.symm.trans hf')
    exact hold.fresh f hf

/-- The groups that are left to recover. -/
theorem Activity.Owned.recovering {todo : List (List Attempt)}
    (h : ∀ g ∈ todo, ∃ o, ∀ a ∈ g, w.Keeps o a) : (Activity.recovering todo).Owned w p :=
  ⟨by rintro f ⟨⟩,h,by rintro goal a left ⟨⟩,by rintro a left ⟨⟩,by rintro f ⟨⟩⟩

/-- The task that moved. -/
theorem Turned.owned (h : Turned w p s t c) (hs : w'.store = s) (htask : w'.tasks p = t)
    (h₀ : (w.tasks p).Owned w p) (hroot : Rooted w) (ht : Traced w) (hown : (w.tasks p).Own p)
    (hext : w.Extends w' c p) : t.Owned w' p := by
  have hmem := fun b (hb : b ∈ w.bound) => hext.mem hb
  have hu : ∀ n, w.store.Unsettled (p.slot n) → w'.store.Unsettled (p.slot n) := by
    intro n hn
    rw [hs]
    exact h.unsettled hn
  -- unless a first attempt is bound, nothing of the pair changes hands
  have hy : (∀ a left, w.tasks p ≠ .binding .execute a left) → ∀ n,
      w'.store.holder (p.slot n) = w.store.holder (p.slot n) ∨
        w'.store.holder (p.slot n) = none := by
    intro hno n
    rw [hs]
    rcases h.holder (p.slot n) with h | ⟨h,-⟩ | ⟨a,left,hp,-⟩
    · exact .inl h
    · exact .inr h
    · exact absurd hp (hno a left)
  have hkept : (∀ a left, w.tasks p ≠ .binding .execute a left) → (w.tasks p).Owned w' p :=
    fun hno => h₀.mono hmem (fun a left hp => absurd hp (hno a left)) (hy hno) hu hown
  cases h with
  | stays =>
    have hsame : ∀ n, w'.store.holder (p.slot n) = w.store.holder (p.slot n) := by
      intro n
      rw [hs]
    refine h₀.mono hmem (fun a left hp ha => ?_) (fun n => .inl (hsame n)) hu hown
    rw [hext.bound] at ha
    exact ha
  | rests hrests hr => exact hrests.owned w' p
  | goes hf hfrom hr => exact hfrom.owned hf (hkept (Activity.no_first hf))
  | signs hr =>
    refine ⟨?_,?_,?_,?_,?_⟩
    · rintro f ⟨⟩
    · rintro g ⟨⟩
    · rintro goal a left ⟨⟩ f ⟨⟩
    · rintro a left ⟨⟩ ha
      have hpend : (w'.tasks p).pending = some _ := congrArg Activity.pending htask
      rcases hext.fresh _ hpend with hold | hnot
      · have hfree : (w.tasks p).pending = none := by
          cases htp : w.tasks p with
          | idle => rfl
          | signerUnavailable => rfl
          | _ =>
            rw [htp] at hr
            cases hr
        rw [hfree] at hold
        cases hold
      · exact absurd ha hnot
    · rintro f ⟨⟩
  | @signsAgain f goal purpose g hf hg => exact (hkept (Activity.no_first hf)).signed hf hg
  | @binds goal a left s t c hp hsb hto =>
    -- the first bind of a nonce, in this round or in an earlier one
    have hfirst : goal = .execute → a ∈ w'.bound →
        w'.store.Reserves a.slot a.owner ∧ w'.store.Unsettled a.slot := by
      rintro rfl ha
      rw [hs]
      rcases hsb with ⟨rfl,rfl⟩ | ⟨hb,rfl⟩
      · rw [hext.bound] at ha
        exact h₀.first a left hp ha
      · have hbound := bindAttempt_spec hb
        exact ⟨.inr hbound.claims.2.1,hroot.claims ht hbound⟩
    have hold : goal ≠ .execute → (Activity.binding goal a left).Owned w' p := by
      intro hne
      rw [← hp]
      refine hkept fun a' left' hp' => hne ?_
      rw [hp] at hp'
      cases hp'
      rfl
    have hown' : (Activity.binding goal a left).Own p := hp ▸ hown
    rcases hto with rfl | ⟨n,rfl⟩ | ⟨e,rfl⟩
    · have ha : a ∈ w'.bound := hext.sent goal a left hp htask
      exact (Activity.Owned.binding hfirst hold left).bound hown' ha fun hg => hfirst hg ha
    · exact .binding hfirst hold n
    · rcases goal.notBound_cases e with hr | ⟨f,hf,hfrom⟩
      · exact hr.owned w' p
      · have hin : f ∈ (Activity.binding goal a left).inFlight := hf
        exact hfrom.owned hin (.binding hfirst hold left)
  | voids hp hsv hfrom hr =>
    have hin := Activity.inFlight_voiding hp
    exact hfrom.owned hin (hkept (Activity.no_first hin))
  | @loads live hin hl =>
    refine .recovering fun g hg => ?_
    obtain ⟨o,ho⟩ := hroot.loads ht hl hg
    exact ⟨o,fun a ha => (ho a ha).mono hmem (.inl (by rw [hs]))⟩
  | @walks group todo s t hp hsw hto =>
    have hno : ∀ a left, w.tasks p ≠ .binding .execute a left := by
      intro a left hp'
      rw [hp] at hp'
      cases hp'
    have hold := hkept hno
    rw [hp] at hold
    have hrest : ∀ g ∈ todo, ∃ o, ∀ a ∈ g, w'.Keeps o a :=
      fun g hg => hold.todo g (List.mem_cons_of_mem group hg)
    rcases hto with rfl | rfl | ⟨chain,rfl⟩
    · exact Activity.rests_down.owned w' p
    · exact .recovering hrest
    · exact .resume (hold.todo group List.mem_cons_self) hrest
  | ends hp hto =>
    rcases hto with rfl | rfl
    · exact Activity.rests_down.owned w' p
    · exact Activity.rests_idle.owned w' p

/-- Rows rewritten in place under the same owners. -/
theorem Rooted.kept (h : Rooted w) (hk : Kept w.store w'.store)
    (hcols : w'.store.columns = w.store.columns) (hb : ∀ b ∈ w.bound, b ∈ w'.bound) :
    Rooted w' := by
  refine ⟨?_,?_⟩
  · intro x hx
    rw [hcols] at hx
    obtain ⟨b,hbm,heq⟩ := h.columns x hx
    exact ⟨b,hb b hbm,heq⟩
  · intro x hx hst
    obtain ⟨F,hF,hm⟩ := hk.attempts
    obtain ⟨r,hr,rfl⟩ := List.mem_map.mp (hm ▸ hx)
    rw [(hF.same r).slot,(hF.same r).owner,Store.holder_same hk.slots]
    exact h.rows r hr fun hd => hst ((hF.dropped r).mpr hd)

theorem AttemptRow.owner_ofAttempt (a : Attempt) : (AttemptRow.ofAttempt a).owner = some a.owner := by
  unfold AttemptRow.owner AttemptRow.ofAttempt
  cases a.owner with
  | job id => rfl
  | topup id => rfl

/-- A row that has its nonce keeps it when another attempt is bound. -/
theorem Rooted.holds (h : Rooted w) (ht : Traced w) {a : Attempt} {epoch : Int} {kind : BindKind}
    (hb : Bound w.store epoch a kind s) {x : AttemptRow} (hx : x ∈ w.store.txAttempts.rows)
    (hst : x.status ≠ .dropped) : s.holder x.slot = x.owner.map SlotOwner.key := by
  have hold := h.rows x hx hst
  by_cases hk : kind = .first
  · subst hk
    rw [← hold]
    refine hb.claims.2.2 _ fun heq => ?_
    -- the nonce that a first bind takes was free
    obtain ⟨o,ho⟩ := Option.isSome_iff_exists.mp (ht.owners x hx)
    rw [heq,hb.claims.1,ho] at hold
    cases hold
  · rw [(hb.again hk).2,hold]

/-- A commit adds the row of its attempt. -/
theorem Rooted.binds (h : Rooted w) (ht : Traced w) {a : Attempt} {epoch : Int} {kind : BindKind}
    (hb : Bound w.store epoch a kind w'.store)
    (hholder : w'.store.holder a.slot = some a.owner.key) (hmem : ∀ b ∈ w.bound, b ∈ w'.bound)
    (hnew : a ∈ w'.bound) : Rooted w' := by
  refine ⟨?_,?_⟩
  · intro x hx
    rw [hb.columns] at hx
    rcases List.mem_append.mp hx with hx | hx
    · obtain ⟨b,hbm,heq⟩ := h.columns x hx
      exact ⟨b,hmem b hbm,heq⟩
    · exact ⟨a,hnew,List.mem_singleton.mp hx⟩
  · intro x hx hst
    rw [hb.attempts] at hx
    rcases List.mem_append.mp hx with hx | hx
    · exact h.holds ht hb hx hst
    · rw [List.mem_singleton.mp hx,AttemptRow.owner_ofAttempt]
      exact hholder

/-- A void drops every row at a nonce of which nothing was mined. -/
theorem Rooted.voids (h : Rooted w) {a : Attempt} {epoch : Int} {mode : VoidMode}
    {disposition : VoidDisposition} {now : Nat}
    (hv : Voids w.store epoch a mode disposition now w'.store)
    (hfresh : w.store.Unsettled a.slot) (hmem : ∀ b ∈ w.bound, b ∈ w'.bound) : Rooted w' := by
  refine ⟨?_,?_⟩
  · intro x hx
    rw [hv.columns] at hx
    obtain ⟨b,hbm,heq⟩ := h.columns x hx
    exact ⟨b,hmem b hbm,heq⟩
  · intro x hx hst
    rw [hv.attempts] at hx
    obtain ⟨r,hrm,rfl⟩ := List.mem_map.mp hx
    rw [dropRow_status] at hst
    have hrst : ¬ (r.slot = a.slot ∧ r.status = .broadcast) := by
      intro hcond
      rw [if_pos hcond] at hst
      exact hst rfl
    rw [if_neg hrst] at hst
    have hne : r.slot ≠ a.slot := by
      intro heq
      rcases hfresh r hrm heq with hbr | hdr
      · exact hrst ⟨heq,hbr⟩
      · exact hst hdr
    rw [(dropRow_same _ r).slot,(dropRow_same _ r).owner]
    rcases hv.releases r.slot with hsame | ⟨heq,-⟩
    · rw [hsame]
      exact h.rows r hrm hst
    · exact absurd heq hne

/-- The rows after a move. -/
theorem Turned.rooted (h : Turned w p s t c) (hs : w'.store = s) (h₀ : (w.tasks p).Owned w p)
    (hroot : Rooted w) (ht : Traced w) (hown : (w.tasks p).Own p) (hext : w.Extends w' c p) :
    Rooted w' := by
  have hmem := fun b (hb : b ∈ w.bound) => hext.mem hb
  have hgentle : ∀ m : Store, Kept w.store m → m.columns = w.store.columns → w'.store = m →
      Rooted w' := by
    rintro m hk hcols rfl
    exact hroot.kept hk hcols hmem
  have hself := (JobsOnly.rfl' w.store).kept
  cases h with
  | stays => exact hgentle _ hself rfl hs
  | rests hrests hr => exact hgentle _ hself rfl hs
  | goes hf hfrom hr => exact hgentle _ hself rfl hs
  | signs hr => exact hgentle _ hself rfl hs
  | signsAgain hf hg => exact hgentle _ hself rfl hs
  | @binds goal a left s t c hp hsb hto =>
    rcases hsb with ⟨rfl,rfl⟩ | ⟨hb,rfl⟩
    · exact hgentle _ hself rfl hs
    · subst hs
      have hbound := bindAttempt_spec hb
      have hnew : a ∈ w'.bound := by
        rw [hext.bound,hp]
        exact List.mem_append_left _ List.mem_cons_self
      exact hroot.binds ht hbound (Activity.Owned.committed (hp ▸ h₀) (hp ▸ hown) hbound) hmem hnew
  | @voids f mode disposition now s t c hp hsv hfrom hr =>
    rcases hsv with ⟨rfl,rfl⟩ | ⟨hv,hc⟩
    · exact hgentle _ hself rfl hs
    · subst hs
      have hin := Activity.inFlight_voiding hp
      have hslot : f.last.slot = p.slot f.nonce := hown.held f hin f.last f.last_mem
      have hfresh : w.store.Unsettled f.last.slot := by
        have hon := hown.honest
        rw [hp] at hon
        rw [hslot]
        exact h₀.fresh f hin hon
      exact hroot.voids (voidBinding_spec hv) hfresh hmem
  | loads hin hl => exact hgentle _ hself rfl hs
  | walks hp hsw hto =>
    rcases hsw with rfl | ⟨a,rfl⟩
    · exact hgentle _ hself rfl hs
    · exact hgentle _ (demoteInclusion_kept _ a) (demoteInclusion_columns _ a) hs
  | ends hp hto => exact hgentle (ensurePair w.store p) ⟨hself.attempts,rfl,rfl⟩ rfl hs

end Moves

/-! ## New attempts -/

/-- An attempt that the task of `p` has just signed, and what for. -/
inductive Signed (w : World) (p : PairKey) : Input → Goal → Attempt → Prop
  | execute {owner : SlotOwner} {g : Signature} (hp : w.tasks p = .idle) :
      Signed w p (.execute owner (.ok g)) .execute
        (sign p owner (w.nextNonce p) owner.purpose g)
  | replace {f : InFlight} {g : Signature} {o : Attempt} (hp : w.tasks p = .replacing f)
      (ho : f.original = some o) :
      Signed w p (.sign (some g)) (.replace f)
        (sign p f.owner f.nonce o.purpose { g with gasLimit := o.gasLimit, value := o.value })
  | cancel {f : InFlight} {g : Signature} (hp : w.tasks p = .cancelling f) :
      Signed w p (.sign (some g)) (.cancel f)
        (sign p f.owner f.nonce .cancel { g with value := 0 })

/-- An activity that binds nothing, and gives no nonce back together with its job. -/
structure Activity.Quiet (t : Activity) : Prop where
  free : t.pending = none
  gives : ∀ f, t ≠ .voiding f .nonceUnused .requeue

/-- What a move makes of the task of `p`, as far as it binds or gives back. -/
inductive Moved (w : World) (p : PairKey) (i : Input) : Activity → Prop
  | same : Moved w p i (w.tasks p)
  | quiet {t : Activity} (h : t.Quiet) : Moved w p i t
  | again {goal : Goal} {a : Attempt} {n m : Nat} (h : w.tasks p = .binding goal a n) :
      Moved w p i (.binding goal a m)
  | signed {goal : Goal} {a : Attempt} (h : Signed w p i goal a) : Moved w p i (.binding goal a 5)

section Signing

variable {w : World} {p : PairKey} {i : Input} {goal : Goal} {a : Attempt} {left : Nat}
  {t : Activity} {f : InFlight}

theorem Activity.Rests.quiet (h : t.Rests) : t.Quiet := by
  refine ⟨h.free,?_⟩
  rintro f rfl
  cases h.inFlight

theorem InFlight.done_quiet (f : InFlight) : f.done.Quiet := by
  refine ⟨f.done_from.free,?_⟩
  unfold InFlight.done
  split
  · rintro g ⟨⟩
  · rintro g ⟨⟩

theorem InFlight.needsRecovery_quiet (f : InFlight) : f.needsRecovery.Quiet := by
  unfold InFlight.needsRecovery
  split
  · exact Activity.rests_down.quiet
  · exact Activity.rests_paused.quiet

theorem InFlight.onReceipt_quiet {hash : B256} {usable : Bool}
    (h : f.onReceipt hash usable = some t) : t.Quiet := by
  unfold InFlight.onReceipt at h
  split at h
  · cases h
    exact f.done_quiet
  · cases h

theorem InFlight.poll_quiet (f : InFlight) (found : Option B256) :
    ((found.bind fun h => f.onReceipt h true).getD (.polling f)).Quiet := by
  cases h : found.bind fun h => f.onReceipt h true with
  | none => exact ⟨rfl,by rintro g ⟨⟩⟩
  | some t =>
    obtain ⟨hash,-,ht⟩ := Option.bind_eq_some_iff.mp h
    exact onReceipt_quiet ht

/-- A rejected broadcast fails the job it gives back the nonce of. -/
theorem InFlight.onAnswer_quiet (chain : ChainKind) (f : InFlight) (x : Answer) :
    (f.onAnswer chain x).Quiet := by
  refine ⟨(f.onAnswer_from chain x).free,?_⟩
  cases x with
  | receipt hash usable =>
    simp only [InFlight.onAnswer]
    cases h : InFlight.onReceipt { f with firstBroadcast := false } hash usable with
    | none => rintro g ⟨⟩
    | some t => exact (InFlight.onReceipt_quiet h).gives
  | accepted => rintro g ⟨⟩
  | notDelivered => rintro g ⟨⟩
  | error kind text =>
    cases kind with
    | nonceTooHigh => exact (InFlight.needsRecovery_quiet _).gives
    | deterministic =>
      simp only [InFlight.onAnswer,InFlight.onSendError]
      split
      · rintro g ⟨⟩
      · rintro g ⟨⟩
    | _ => rintro g ⟨⟩

/-- A nonce that someone else took is not given back. -/
theorem InFlight.onNonceTooLow_quiet {fresh : Bool} (parks : Bool) (found : Option B256)
    (h : fresh = true → f.neverAccepted = true) : (f.onNonceTooLow fresh parks found).Quiet := by
  refine ⟨(f.onNonceTooLow_from parks found h).free,?_⟩
  unfold InFlight.onNonceTooLow
  split
  · next t ht =>
    obtain ⟨hash,-,ht⟩ := Option.bind_eq_some_iff.mp ht
    exact (onReceipt_quiet ht).gives
  · split
    · rintro g ⟨⟩
    · split
      · rintro g ⟨⟩
      · rintro g ⟨⟩

theorem InFlight.escalate_quiet (chain : ChainKind) (f : InFlight) (d : Diagnosis) :
    (f.escalate chain d).Quiet := by
  refine ⟨(f.escalate_from chain d).free,?_⟩
  unfold InFlight.escalate
  dsimp only
  split
  · rintro g ⟨⟩
  · rintro g ⟨⟩
  · split
    · rintro g ⟨⟩
    · split
      · exact f.needsRecovery_quiet.gives
      · split
        · rintro g ⟨⟩
        · split
          · rintro g ⟨⟩
          · rintro g ⟨⟩
  · split
    · rintro g ⟨⟩
    · rintro g ⟨⟩
  · rintro g ⟨⟩

theorem Goal.notBound_quiet (goal : Goal) (e : StoreError) : (goal.notBound e).Quiet := by
  cases goal with
  | execute =>
    simp only [Goal.notBound]
    split
    · exact Activity.rests_down.quiet
    · exact Activity.rests_idle.quiet
  | replace f =>
    simp only [Goal.notBound]
    split
    · exact Activity.rests_down.quiet
    · exact ⟨rfl,by rintro g ⟨⟩⟩
  | cancel f =>
    simp only [Goal.notBound]
    split
    · exact Activity.rests_down.quiet
    · exact ⟨rfl,by rintro g ⟨⟩⟩

theorem resume_quiet (chain : ChainKind) (group : List Attempt) (todo : List (List Attempt)) :
    (resume chain group todo).Quiet := by
  refine ⟨(resume_pending chain group todo).1,?_⟩
  rcases resume_cases chain group todo with h | ⟨f,h,-⟩
  · rw [h]
    rintro g ⟨⟩
  · rw [h]
    rintro g ⟨⟩

theorem Moved.round (r : Round) (hp : w.tasks p = .binding goal a left) :
    Moved w p i ((w.round p goal a left r).tasks p) := by
  unfold World.round
  dsimp only
  split
  · rw [World.setTask_tasks]
    exact .quiet ⟨rfl,by rintro g ⟨⟩⟩
  · rw [World.setTask_tasks]
    exact .quiet (goal.notBound_quiet _)
  · split
    · rw [World.setTask_tasks]
      exact .quiet (goal.notBound_quiet _)
    · rw [World.setTask_tasks]
      exact .again hp

theorem Moved.void {mode : VoidMode} {disposition : VoidDisposition} (call : Call) (now : Nat) :
    Moved w p i ((w.void p f mode disposition call now).tasks p) := by
  rcases w.void_cases p f mode disposition call now with ⟨s,t,-,ht,heq⟩ | ⟨s,-,-,heq⟩
  · rw [heq,World.setTask_tasks]
    rcases ht with rfl | rfl
    · exact .quiet Activity.rests_down.quiet
    · exact .quiet ⟨rfl,by rintro g ⟨⟩⟩
  · rw [heq]
    split
    · rw [World.setTask_tasks]
      exact .quiet f.done_quiet
    · rw [World.setTask_tasks]
      split
      · exact .quiet Activity.rests_down.quiet
      · exact .quiet f.done_quiet

theorem Moved.recoverNext (chain : ChainKind) {group : List Attempt} {todo : List (List Attempt)}
    (l : Look) : Moved w p i ((w.recoverNext chain p group todo l).tasks p) := by
  unfold World.recoverNext
  split
  · rw [World.setTask_tasks]
    exact .quiet (resume_quiet chain group todo)
  · cases l with
    | receipt =>
      simp only [World.setTask_tasks]
      exact .quiet ⟨rfl,by rintro g ⟨⟩⟩
    | failed =>
      simp only [World.setTask_tasks]
      exact .quiet Activity.rests_down.quiet
    | gone call =>
      dsimp only
      split
      · rw [World.setTask_tasks]
        exact .quiet (resume_quiet chain group todo)
      · rw [World.setTask_tasks]
        exact .quiet Activity.rests_down.quiet

theorem Moved.recover : Moved w p i ((w.recover p).tasks p) := by
  unfold World.recover
  split
  · rw [World.setTask_tasks]
    exact .quiet ⟨rfl,by rintro g ⟨⟩⟩
  · exact .same

theorem Moved.sign (chain : ChainKind) (signed : Option Signature)
    (hp : w.tasks p = .replacing f) :
    Moved w p (.sign signed) (f.replaceWithFreshFees chain p signed) := by
  unfold InFlight.replaceWithFreshFees
  split
  · exact .quiet ⟨rfl,by rintro g ⟨⟩⟩
  · split
    · next o g ho => exact .signed (.replace hp ho)
    · exact .quiet ⟨rfl,by rintro g ⟨⟩⟩

theorem Moved.cancel (signed : Option Signature) (hp : w.tasks p = .cancelling f) :
    Moved w p (.sign signed) (f.cancel p signed) := by
  unfold InFlight.cancel
  split
  · exact .signed (.cancel hp)
  · exact .quiet ⟨rfl,by rintro g ⟨⟩⟩

theorem World.turn_moved (chains : ChainId → ChainKind) (i : Input) (hon : (w.tasks p).Honest) :
    Moved w p i ((w.turn chains p i).tasks p) := by
  have htakes := w.turn_takes chains p i
  generalize w.turn chains p i = w' at htakes ⊢
  cases htakes with
  | unfit | deliver | arrive => exact .same
  | @execute owner signed hp =>
    cases signed with
    | error e =>
      rw [World.execute,World.setTask_tasks]
      exact .quiet Activity.rests_signerUnavailable.quiet
    | ok g =>
      rw [World.execute,World.setTask_tasks]
      exact .signed (.execute hp)
  | @round r goal a left hp => exact .round r hp
  | @answer x f hp =>
    rw [World.answer,World.setTask_tasks]
    exact .quiet (f.onAnswer_quiet _ x)
  | @lookBack found f fresh parks hp =>
    rw [hp] at hon
    rw [World.setTask_tasks]
    exact .quiet (f.onNonceTooLow_quiet parks found hon)
  | @poll found f hp =>
    rw [World.setTask_tasks]
    exact .quiet (f.poll_quiet found)
  | @escalate d f hp hf =>
    rw [World.setTask_tasks]
    exact .quiet (f.escalate_quiet _ d)
  | @replace signed f hp =>
    rw [World.sign,World.setTask_tasks]
    exact .sign _ signed hp
  | @cancel signed f hp =>
    rw [World.sign,World.setTask_tasks]
    exact .cancel signed hp
  | void hp => exact .void _ _
  | recover hp => exact .recover
  | recoverNext hp => exact .recoverNext _ _
  | recoverFailed hp | stop hp =>
    rw [World.setTask_tasks]
    exact .quiet Activity.rests_down.quiet
  | recoverDone hp | resume hp =>
    rw [World.setTask_tasks]
    exact .quiet Activity.rests_idle.quiet

/-- A task binds what it bound before, or what it has just signed. -/
theorem Moved.binding (h : Moved w p i t) (ht : t = .binding goal a left) :
    (∃ n, w.tasks p = .binding goal a n) ∨ Signed w p i goal a := by
  cases h with
  | same => exact .inl ⟨left,ht⟩
  | quiet hq =>
    rw [ht] at hq
    cases hq.free
  | again hp =>
    cases ht
    exact .inl ⟨_,hp⟩
  | signed hs =>
    cases ht
    exact .inr hs

/-- No move gives a nonce back together with its job. -/
theorem Moved.gives (h : Moved w p i t) (ht : t = .voiding f .nonceUnused .requeue) :
    w.tasks p = .voiding f .nonceUnused .requeue := by
  cases h with
  | same => exact ht
  | quiet hq => exact absurd ht (hq.gives f)
  | again hp => cases ht
  | signed hs => cases ht

end Signing

/-! ## The invariants -/

/-- Every attempt in memory is one that was committed for the owner of its nonce. -/
structure Attributed (w : World) : Prop where
  rooted : Rooted w
  owned : ∀ p, (w.tasks p).Owned w p
  gives : ∀ p f, w.tasks p ≠ .voiding f .nonceUnused .requeue

section Attribution

variable {w : World} {p : PairKey} {i : Input}

theorem Traced.own (h : Traced w) (p : PairKey) : (w.tasks p).Own p := by
  refine ⟨h.honest p,fun a ha => (h.pending p a ha).2.1,h.goal p,?_,?_⟩
  · intro f hf a ha
    obtain ⟨b,-,hcop,hslot⟩ := h.held p f hf a ha
    exact hcop.slot.trans hslot
  · intro g hg
    obtain ⟨n,hn⟩ := h.todo p g hg
    refine ⟨n,fun a ha => ?_⟩
    obtain ⟨b,-,hcop,hslot⟩ := hn a ha
    exact hcop.slot.trans hslot

theorem Signed.fresh {goal : Goal} {a : Attempt} (h : Signed w p i goal a) (hi : i.Possible w p) :
    a.id ∉ w.signed := by
  cases h with
  | execute hp => exact hi _ rfl
  | replace hp ho => exact hi _ rfl
  | cancel hp => exact hi _ rfl

theorem World.turn_extends {chains : ChainId → ChainKind} (ht : Traced w) (hi : i.Possible w p)
    (ht' : Traced (w.turn chains p i)) :
    w.Extends (w.turn chains p i) (w.tally p i) p := by
  refine ⟨w.turn_bound chains p i,?_,?_⟩
  · intro goal a left hp hsent
    have hpend : (w.tasks p).pending = some a := by
      rw [hp]
      rfl
    have hlast : (goal.bound a).last = a := by
      cases goal with
      | execute => rfl
      | replace f => rfl
      | cancel f => rfl
    obtain ⟨b,hb,hcop,-⟩ := ht'.held p (goal.bound a) (by rw [hsent]; rfl) _
      (goal.bound a).last_mem
    rw [hlast] at hcop
    rw [w.turn_bound chains p i,hpend] at hb ⊢
    have hold : b ∈ w.bound → a ∈ w.bound := by
      intro hbw
      rw [← (ht.pending p a hpend).2.2 b hbw hcop.id.symm]
      exact hbw
    cases hc : w.tally p i with
    | kept =>
      rw [hc] at hb
      exact hold hb
    | took k => exact List.mem_append_left _ List.mem_cons_self
    | gave k =>
      rw [hc] at hb
      exact hold hb
  · intro a ha
    cases htask : (w.turn chains p i).tasks p with
    | binding goal b left =>
      rw [htask] at ha
      obtain rfl : b = a := Option.some.inj ha
      rcases (World.turn_moved chains i (ht.honest p)).binding htask with ⟨n,hp⟩ | hs
      · exact .inl (by rw [hp]; rfl)
      · right
        intro hmem
        rw [w.turn_bound chains p i] at hmem
        -- a new attempt is not committed in the move that signs it
        have hnot := hs.fresh hi
        have hold : b ∉ w.bound := fun hb => hnot (ht.ids b hb)
        cases hs with
        | execute hp =>
          rw [hp] at hmem
          exact hold hmem
        | replace hp ho =>
          rw [hp] at hmem
          exact hold hmem
        | cancel hp =>
          rw [hp] at hmem
          exact hold hmem
    | _ =>
      rw [htask] at ha
      cases ha

theorem Attributed.turn {chains : ChainId → ChainKind} (h : Attributed w) (ht : Traced w)
    (hi : i.Possible w p) (ht' : Traced (w.turn chains p i)) :
    Attributed (w.turn chains p i) := by
  have hturn := World.turn_turned chains i (ht.honest p)
  have hext := World.turn_extends ht hi ht'
  have hap := w.turn_apart chains p i
  refine ⟨hturn.rooted rfl (h.owned p) h.rooted ht (ht.own p) hext,?_,?_⟩
  · intro q
    by_cases hq : q = p
    · subst hq
      exact hturn.owned rfl rfl (h.owned q) h.rooted ht (ht.own q) hext
    · rw [(hap q hq).1]
      refine (h.owned q).mono (fun b hb => hext.mem hb) ?_ ?_ ?_ (ht.own q)
      · intro a left hqt ha
        rw [hext.bound] at ha
        cases hc : w.tally p i with
        | kept =>
          rw [hc] at ha
          exact ha
        | gave k =>
          rw [hc] at ha
          exact ha
        | took k =>
          rw [hc] at ha
          rcases List.mem_append.mp ha with ha | ha
          · -- the pair that commits is not the one that waits
            rw [Option.mem_toList] at ha
            exact absurd (ht.apart q p a a (by rw [hqt]; rfl) ha rfl) hq
          · exact ha
      · intro n
        rcases hturn.holder (q.slot n) with hk | ⟨hk,-⟩ | ⟨a,left,hp,hslot,-⟩
        · exact .inl hk
        · exact .inr hk
        · rw [(ht.own p).pending a (by rw [hp]; rfl)] at hslot
          exact absurd (PairKey.slot_pair hslot) hq
      · exact fun n hn => hturn.unsettled hn
  · intro q f hf
    by_cases hq : q = p
    · subst hq
      exact h.gives q f ((World.turn_moved chains i (ht.honest q)).gives hf)
    · rw [(hap q hq).1] at hf
      exact h.gives q f hf

/-- An inclusion settles nothing at another nonce, and no other transaction settles anything that
is not mined. -/
theorem Op.Possible.unsettled {op : Op} (hop : op.Possible w) {k : Slot}
    (hk : w.store.Unsettled k)
    (hissued : ∀ a inc confirmNow, op = .settleInclusion a inc confirmNow → a.slot ≠ k) :
    (op.apply w.store).Unsettled k := by
  have hsame : ∀ s : Store, s.txAttempts = w.store.txAttempts → s.Unsettled k := by
    intro s hs
    unfold Store.Unsettled
    rw [hs]
    exact hk
  have hconfirm : ∀ (m : Store) (a : Attempt), m.Unsettled k →
      Store.Unsettled (confirmInTx m a).2 k := by
    intro m a hm
    rcases confirmInTx_spec m a with h | ⟨-,h⟩
    · rwa [h]
    · refine hm.map (fun r => (confirmRow_same a r).slot) ?_ h.attempts
      intro r _ _ hr
      unfold AttemptRow.Unsettled
      rw [confirmRow_status,if_neg]
      · exact hr
      · rintro ⟨-,hinc⟩
        rcases hr with hr | hr
        · rw [hr] at hinc
          cases hinc
        · rw [hr] at hinc
          cases hinc
  cases op with
  | insertJob id request =>
    exact Store.commit_cases (I := fun s => s.Unsettled k) hk
      fun s' h => hsame s' (insertJob_spec h).1.attempts
  | createTopup id chainId treasury signer amount =>
    exact Store.commit_cases (I := fun s => s.Unsettled k) hk
      fun s' h => hsame s' (createTopup_spec h).1.attempts
  | bindAttempt epoch a kind => cases hop
  | settleInclusion a inc confirmNow =>
    have hne := hissued a inc confirmNow rfl
    refine Store.commit_map_cases (I := fun s => s.Unsettled k) hk fun st s' h => ?_
    rcases settleInclusion_spec h with ⟨-,rfl⟩ | ⟨-,m,hm,rfl⟩
    · exact hk
    · have hsettled : m.Unsettled k := by
        refine hk.map (fun r => (settleRow_same a inc r).slot) ?_ hm.attempts
        intro r hr hslot hst
        unfold AttemptRow.Unsettled
        rw [settleRow_status]
        split
        · rw [if_neg,if_neg]
          · exact .inl rfl
          · exact fun h => hne (h.symm.trans hslot)
          · exact fun hid => hne ((hop.1 r hr hid).slot.symm.trans hslot)
        · exact hst
      split
      · exact hconfirm m a hsettled
      · exact hsettled
  | settleConfirmation a => exact hconfirm w.store a hk
  | updateInclusionBlock a number hash receipt =>
    refine hk.map (fun r => (moveRow_same a number hash r).slot) ?_
      (updateInclusionBlock_spec w.store a number hash receipt).attempts
    intro r _ _ hr
    unfold AttemptRow.Unsettled
    rw [moveRow_status]
    exact hr
  | demoteInclusion a => exact hk.demote a
  | voidBinding epoch a mode disposition now => cases hop
  | failJob id allowed failure message revertData =>
    exact hsame _ (failJob_only w.store _ _ _ _ _).attempts
  | requeueFront id now =>
    exact Store.commit_map_cases (I := fun s => s.Unsettled k) hk
      fun n s' h => hsame s' (requeueFront_spec h).1.attempts
  | cancelQueued id => exact hsame _ (failJob_only w.store _ _ _ _ _).attempts
  | acquire => cases hop

/-- A transaction of others. -/
theorem Attributed.op (h : Attributed w) (ht : Traced w) {o : Op} (ho : o.Possible w)
    (hissued : (CallEvent.op o).Issued w) :
    Attributed { w with store := o.apply w.store } := by
  have hun := Op.Possible.unfenced ho
  have hkept := Op.unfenced_kept (s := w.store) hun
  have hholder : ∀ k, (o.apply w.store).holder k = w.store.holder k := Store.holder_same hkept.slots
  have huns : ∀ p n, (w.tasks p).opens = some n → w.store.Unsettled (p.slot n) →
      (o.apply w.store).Unsettled (p.slot n) := by
    intro p n hopen hk
    refine ho.unsettled hk ?_
    rintro a inc confirmNow rfl hslot
    have hpair : a.pair = p := by
      have hc : a.chainId = p.chainId := congrArg Slot.chainId hslot
      have hs : a.signer = p.signer := congrArg Slot.signer hslot
      rw [Attempt.pair,hc,hs]
    have hn : a.nonce = n := congrArg Slot.nonce hslot
    refine hissued ?_
    rw [hpair,hn]
    exact hopen
  refine ⟨⟨?_,?_⟩,?_,h.gives⟩
  · intro x hx
    rw [show _ = _ from Op.unfenced_columns hun w.store] at hx
    exact h.rooted.columns x hx
  · intro x hx hst
    obtain ⟨F,hF,hm⟩ := hkept.attempts
    obtain ⟨r,hr,rfl⟩ := List.mem_map.mp (hm ▸ hx)
    rw [(hF.same r).slot,(hF.same r).owner]
    exact (hholder r.slot).trans (h.rooted.rows r hr fun hd => hst ((hF.dropped r).mpr hd))
  · intro p
    have hkeeps : ∀ x a, w.Keeps x a → World.Keeps { w with store := o.apply w.store } x a :=
      fun x a ha => ha.mono (fun b hb => hb) (.inl (hholder a.slot))
    refine ⟨?_,?_,(h.owned p).again,?_,?_⟩
    · exact fun f hf a ha => hkeeps _ a ((h.owned p).held f hf a ha)
    · intro g hg
      obtain ⟨x,hx⟩ := (h.owned p).todo g hg
      exact ⟨x,fun a ha => hkeeps x a (hx a ha)⟩
    · intro a left hp ha
      obtain ⟨hres,hk⟩ := (h.owned p).first a left hp ha
      have hslot := (ht.own p).pending a (by rw [hp]; rfl)
      refine ⟨hres.yields (.inl (hholder a.slot)),?_⟩
      rw [hslot] at hk ⊢
      exact huns p a.nonce (by rw [hp]; rfl) hk
    · intro f hf hfresh
      exact huns p f.nonce (Activity.opens_of_fresh hf hfresh) ((h.owned p).fresh f hf hfresh)

end Attribution

end GumEngine
