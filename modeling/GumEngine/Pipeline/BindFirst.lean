import GumEngine.Pipeline.Moves

/-!
# Bind before broadcast

Whatever the database, the nodes and restarts do, the bytes a task is about to send belong
to an attempt that was committed before, for the same nonce and owner: as long as
`attempt_exists`, which only looks at the hash, is not asked about bytes that are
stored as another attempt.
-/

namespace GumEngine
open Relational Transition

/-- `a` is the attempt `b` as it was committed, up to its status. -/
structure Attempt.Copies (a b : Attempt) : Prop where
  id : a.id = b.id
  slot : a.slot = b.slot
  owner : a.owner = b.owner
  txHash : a.txHash = b.txHash
  rawTx : a.rawTx = b.rawTx

/-- `a` was committed for the slot `k`. -/
def World.Committed (w : World) (k : Slot) (a : Attempt) : Prop :=
  ∃ b ∈ w.bound, a.Copies b ∧ b.slot = k

/-- The invariant. Rows and committed attempts are the same; an attempt being bound is
committed under its own id or not at all; what a task holds was committed. -/
structure Traced (w : World) : Prop where
  rows : ∀ r ∈ w.store.txAttempts.rows, ∃ b ∈ w.bound, r.id = b.id ∧ r.IsOf b ∧
    (r.live → r.rawTx = some b.rawTx)
  stored : ∀ b ∈ w.bound, ∃ r ∈ w.store.txAttempts.rows, r.id = b.id ∧ r.IsOf b
  ids : ∀ b ∈ w.bound, b.id ∈ w.signed
  distinct : ∀ b ∈ w.bound, ∀ b' ∈ w.bound, b.id = b'.id → b = b'
  pending : ∀ p a, (w.tasks p).pending = some a → a.id ∈ w.signed ∧
    a.slot = p.slot a.nonce ∧ ∀ b ∈ w.bound, b.id = a.id → b = a
  apart : ∀ p q a b, (w.tasks p).pending = some a → (w.tasks q).pending = some b →
    a.id = b.id → p = q
  goal : ∀ p goal a left, w.tasks p = .binding goal a left → ∀ f ∈ goal.inFlight,
    a.nonce = f.nonce
  honest : ∀ p, (w.tasks p).Honest
  held : ∀ p, ∀ f ∈ (w.tasks p).inFlight, ∀ a ∈ f.attempts, w.Committed (p.slot f.nonce) a
  todo : ∀ p, ∀ g ∈ (w.tasks p).todo, ∃ n, ∀ a ∈ g, w.Committed (p.slot n) a

theorem Attempt.Copies.rfl' (a : Attempt) : a.Copies a := ⟨rfl,rfl,rfl,rfl,rfl⟩

/-- A loaded attempt copies the committed one its row stems from. -/
theorem Attempt.Copies.of_row {r : AttemptRow} {a b : Attempt} (hid : r.id = b.id)
    (hof : r.IsOf b) (hraw : r.rawTx = some b.rawTx) (h : attemptRow r = .ok a) : a.Copies b := by
  obtain ⟨ho,hi,hh,hr⟩ := attemptRow_ok h
  have hown : r.owner = some b.owner := by
    unfold AttemptRow.owner
    rw [hof.jobId,hof.topupId]
    cases b.owner <;> rfl
  refine ⟨hi.trans hid,(attemptRow_slot h).trans hof.slot,?_,hh.trans hof.txHash,?_⟩
  · exact Option.some.inj (ho.symm.trans hown)
  · rw [hr,hraw]
    rfl

theorem Activity.todo_of_inFlight {t : Activity} {f : InFlight} (hf : f ∈ t.inFlight) :
    t.todo = f.todo.getD [] := by
  cases t with
  | recovering todo => cases hf
  | _ =>
    rw [Option.mem_def] at hf
    simp [Activity.todo,hf]

/-- The nonce of which no broadcast has been acknowledged yet. -/
def Activity.opens : Activity → Option Nat
  | .binding .execute a _ => some a.nonce
  | t => t.inFlight.bind fun f => if f.neverAccepted then some f.nonce else none

theorem Activity.opens_of_fresh {t : Activity} {f : InFlight} (hf : f ∈ t.inFlight)
    (hfresh : f.neverAccepted = true) : t.opens = some f.nonce := by
  have hbind : t.opens = t.inFlight.bind fun f => if f.neverAccepted then some f.nonce else none := by
    cases t with
    | binding goal a left =>
      cases goal with
      | execute => cases hf
      | replace g => rfl
      | cancel g => rfl
    | _ => rfl
  rw [hbind,hf]
  simp [hfresh]

section Tasks

variable {w : World} {p : PairKey} {t : Activity}

theorem World.tasks_setTask (w : World) (p q : PairKey) (t : Activity) :
    (w.setTask p t).tasks q = if q = p then t else w.tasks q := by
  unfold World.setTask
  by_cases hq : q = p
  · subst hq
    simp
  · simp [hq]

/-- A task that binds nothing and holds only what was committed. -/
theorem Traced.setTask (h : Traced w) (hfree : t.pending = none) (hon : t.Honest)
    (hheld : ∀ f ∈ t.inFlight, ∀ a ∈ f.attempts, w.Committed (p.slot f.nonce) a)
    (htodo : ∀ g ∈ t.todo, ∃ n, ∀ a ∈ g, w.Committed (p.slot n) a) : Traced (w.setTask p t) := by
  have hpend : ∀ q a, ((w.setTask p t).tasks q).pending = some a →
      (w.tasks q).pending = some a := by
    intro q a ha
    rw [w.tasks_setTask] at ha
    split at ha
    · rw [hfree] at ha
      cases ha
    · exact ha
  refine ⟨h.rows,h.stored,h.ids,h.distinct,?_,?_,?_,?_,?_,?_⟩
  · exact fun q a ha => h.pending q a (hpend q a ha)
  · exact fun q q' a b ha hb => h.apart q q' a b (hpend q a ha) (hpend q' b hb)
  · intro q goal a left hq
    rw [w.tasks_setTask] at hq
    split at hq
    · rw [hq] at hfree
      cases hfree
    · exact h.goal q goal a left hq
  · intro q
    rw [w.tasks_setTask]
    split
    · exact hon
    · exact h.honest q
  · intro q f hf
    rw [w.tasks_setTask] at hf
    split at hf
    · next hq =>
      subst hq
      exact hheld f hf
    · exact h.held q f hf
  · intro q g hg
    rw [w.tasks_setTask] at hg
    split at hg
    · next hq =>
      subst hq
      exact htodo g hg
    · exact h.todo q g hg

theorem Traced.goes (h : Traced w) {f : InFlight} (hf : f ∈ (w.tasks p).inFlight)
    (ht : t.From f) : Traced (w.setTask p t) := by
  refine h.setTask ht.free ht.honest ?_ ?_
  · intro f' hf' a ha
    have hl := ht.inFlight f' hf'
    rw [hl.attempts] at ha
    rw [hl.nonce]
    exact h.held p f hf a ha
  · intro g hg
    refine h.todo p g ?_
    rw [Activity.todo_of_inFlight hf]
    exact ht.todo g hg

theorem Traced.rests (h : Traced w) (ht : t.Rests) : Traced (w.setTask p t) := by
  refine h.setTask ht.free ht.honest ?_ ?_
  · intro f hf
    rw [ht.inFlight] at hf
    cases hf
  · intro g hg
    rw [ht.todo] at hg
    cases hg

/-- A new signature has a new id, so nothing is stored under it. -/
theorem Traced.signs (h : Traced w) {goal : Goal} {a : Attempt} {left : Nat}
    (hid : a.id ∉ w.signed) (hslot : a.slot = p.slot a.nonce)
    (hgoal : ∀ f ∈ goal.inFlight, a.nonce = f.nonce ∧ f ∈ (w.tasks p).inFlight) :
    Traced ({ w with signed := a.id :: w.signed }.setTask p (.binding goal a left)) := by
  have hpend : ∀ q b, ((World.setTask { w with signed := a.id :: w.signed } p
      (.binding goal a left)).tasks q).pending = some b →
      q = p ∧ b = a ∨ q ≠ p ∧ (w.tasks q).pending = some b := by
    intro q b hb
    rw [World.tasks_setTask] at hb
    split at hb
    · next hq => exact .inl ⟨hq,(Option.some.inj hb).symm⟩
    · next hq => exact .inr ⟨hq,hb⟩
  have hnew : ∀ q b, (w.tasks q).pending = some b → b.id ≠ a.id := by
    intro q b hb he
    exact hid (he ▸ (h.pending q b hb).1)
  refine ⟨h.rows,h.stored,?_,h.distinct,?_,?_,?_,?_,?_,?_⟩
  · exact fun b hb => List.mem_cons_of_mem _ (h.ids b hb)
  · intro q b hb
    rcases hpend q b hb with ⟨rfl,rfl⟩ | ⟨-,hb⟩
    · refine ⟨List.mem_cons_self,hslot,?_⟩
      intro c hc he
      exact absurd (he ▸ h.ids c hc) hid
    · obtain ⟨hs,hrest⟩ := h.pending q b hb
      exact ⟨List.mem_cons_of_mem _ hs,hrest⟩
  · intro q q' b b' hb hb' he
    rcases hpend q b hb with ⟨hq,hx⟩ | ⟨-,hx⟩ <;> rcases hpend q' b' hb' with ⟨hq',hx'⟩ | ⟨-,hx'⟩
    · exact hq.trans hq'.symm
    · exact absurd (he.symm.trans (congrArg Attempt.id hx)) (hnew q' b' hx')
    · exact absurd (he.trans (congrArg Attempt.id hx')) (hnew q b hx)
    · exact h.apart q q' b b' hx hx' he
  · intro q goal' b left' hq
    rw [World.tasks_setTask] at hq
    split at hq
    · cases hq
      exact fun f hf => (hgoal f hf).1
    · exact h.goal q goal' b left' hq
  · intro q
    rw [World.tasks_setTask]
    split
    · trivial
    · exact h.honest q
  · intro q f hf
    rw [World.tasks_setTask] at hf
    split at hf
    · next hq =>
      subst hq
      exact h.held q f (hgoal f hf).2
    · exact h.held q f hf
  · intro q g hg
    rw [World.tasks_setTask] at hg
    split at hg
    · next hq =>
      subst hq
      cases hin : goal.inFlight with
      | none => simp [Activity.todo,Activity.inFlight,hin] at hg
      | some f =>
        have hf : f ∈ (Activity.binding goal a left).inFlight := hin
        rw [Activity.todo_of_inFlight hf] at hg
        refine h.todo q g ?_
        rwa [Activity.todo_of_inFlight (hgoal f hin).2]
    · exact h.todo q g hg

/-- Rows rewritten in place. -/
theorem Traced.rewritten (h : Traced w) {s : Store} {F : AttemptRow → AttemptRow}
    (hF : ∀ r, (F r).Same r) (hl : ∀ r, (F r).live → r.live ∧ (F r).rawTx = r.rawTx)
    (hm : s.txAttempts.rows = w.store.txAttempts.rows.map F) :
    Traced { w with store := s } := by
  refine ⟨?_,?_,h.ids,h.distinct,h.pending,h.apart,h.goal,h.honest,h.held,h.todo⟩
  · intro x hx
    obtain ⟨r,hr,rfl⟩ := List.mem_map.mp (hm ▸ hx)
    obtain ⟨b,hb,hid,hof,hraw⟩ := h.rows r hr
    refine ⟨b,hb,(hF r).id.trans hid,(hF r).isOf hof,?_⟩
    intro hlive
    obtain ⟨hlive,hsame⟩ := hl r hlive
    rw [hsame]
    exact hraw hlive
  · intro b hb
    obtain ⟨r,hr,hid,hof⟩ := h.stored b hb
    exact ⟨F r,by rw [hm]; exact List.mem_map_of_mem hr,(hF r).id.trans hid,(hF r).isOf hof⟩

/-- The attempt being bound is committed. -/
theorem Traced.commits (h : Traced w) {a : Attempt} {kind : BindKind} {s : Store}
    (ha : (w.tasks p).pending = some a) (hb : Bound w.store w.epoch a kind s) :
    Traced { w with store := s, bound := a :: w.bound } := by
  have hfresh : ∀ b ∈ w.bound, b.id ≠ a.id := by
    intro b hb' he
    obtain ⟨r,hr,hid,-⟩ := h.stored b hb'
    exact hb.fresh r hr (.inl (hid.trans he))
  have hgrow : ∀ k x, w.Committed k x →
      World.Committed { w with store := s, bound := a :: w.bound } k x := by
    rintro k x ⟨b,hb',hx⟩
    exact ⟨b,List.mem_cons_of_mem _ hb',hx⟩
  obtain ⟨hid,hslot,hown⟩ := h.pending p a ha
  refine ⟨?_,?_,?_,?_,?_,h.apart,h.goal,h.honest,?_,?_⟩
  · intro x hx
    rw [show _ = _ from hb.attempts] at hx
    rcases List.mem_append.mp hx with hx | hx
    · obtain ⟨b,hb',hrest⟩ := h.rows x hx
      exact ⟨b,List.mem_cons_of_mem _ hb',hrest⟩
    · rw [List.mem_singleton.mp hx]
      exact ⟨a,List.mem_cons_self,rfl,AttemptRow.ofAttempt_isOf a,fun _ => rfl⟩
  · intro b hb'
    rw [show _ = _ from hb.attempts]
    rcases List.mem_cons.mp hb' with rfl | hb'
    · exact ⟨.ofAttempt b,by simp,rfl,AttemptRow.ofAttempt_isOf b⟩
    · obtain ⟨r,hr,hrest⟩ := h.stored b hb'
      exact ⟨r,List.mem_append_left _ hr,hrest⟩
  · intro b hb'
    rcases List.mem_cons.mp hb' with rfl | hb'
    · exact hid
    · exact h.ids b hb'
  · intro b hb b' hb' he
    rcases List.mem_cons.mp hb with hx | hx <;> rcases List.mem_cons.mp hb' with hx' | hx'
    · exact hx.trans hx'.symm
    · exact absurd (he.symm.trans (congrArg Attempt.id hx)) (hfresh b' hx')
    · exact absurd (he.trans (congrArg Attempt.id hx')) (hfresh b hx)
    · exact h.distinct b hx b' hx' he
  · intro q c hc
    obtain ⟨hid',hslot',hown'⟩ := h.pending q c hc
    refine ⟨hid',hslot',?_⟩
    intro b hb' he
    rcases List.mem_cons.mp hb' with rfl | hb'
    · -- ids of pending attempts tell the pairs apart
      obtain rfl := h.apart p q b c ha hc he
      exact Option.some.inj (ha.symm.trans hc)
    · exact hown' b hb' he
  · exact fun q f hf x hx => hgrow _ x (h.held q f hf x hx)
  · intro q g hg
    obtain ⟨n,hn⟩ := h.todo q g hg
    exact ⟨n,fun x hx => hgrow _ x (hn x hx)⟩

/-- Once its attempt is committed, the goal's nonce holds committed attempts only. -/
theorem Traced.bound (h : Traced w) {goal : Goal} {a : Attempt} {left : Nat}
    (hp : w.tasks p = .binding goal a left) (ha : a ∈ w.bound) :
    Traced (w.setTask p (.sending (goal.bound a))) := by
  have hin : (w.tasks p).inFlight = goal.inFlight := by
    rw [hp]
    rfl
  have hcom : w.Committed (p.slot a.nonce) a :=
    ⟨a,ha,.rfl' a,(h.pending p a (by rw [hp]; rfl)).2.1⟩
  have hold : ∀ f ∈ goal.inFlight, ∀ x ∈ f.attempts ++ [a], w.Committed (p.slot f.nonce) x := by
    intro f hf x hx
    rcases List.mem_append.mp hx with hx | hx
    · exact h.held p f (hin ▸ hf) x hx
    · rw [List.mem_singleton.mp hx,← h.goal p goal a left hp f hf]
      exact hcom
  refine h.setTask rfl trivial ?_ ?_
  · rintro f ⟨⟩ x hx
    cases goal with
    | execute =>
      rw [show x = a by simpa [Goal.bound,InFlight.attempts] using hx]
      exact hcom
    | replace f => exact hold f rfl x hx
    | cancel f => exact hold f rfl x hx
  · intro g hg
    refine h.todo p g ?_
    rw [hp]
    cases goal <;> exact hg

end Tasks

/-- An `attempt_exists` that decides over a bind finds nothing but the attempt itself. -/
def Event.AsksOwn (w : World) : Event → Prop
  | .task p (.round r) => ∀ a ∈ (w.tasks p).pending, r.call.cutOff = true → r.ask ≠ .failed →
    ∀ x ∈ w.store.txAttempts.rows, x.txHash = a.txHash → x.id = a.id
  | _ => True

instance (w : World) : DecidablePred (Event.AsksOwn w)
  | .task p (.round r) => inferInstanceAs (Decidable (∀ a ∈ (w.tasks p).pending,
      r.call.cutOff = true → r.ask ≠ .failed →
        ∀ x ∈ w.store.txAttempts.rows, x.txHash = a.txHash → x.id = a.id))
  | .op _ | .mine _ _ | .restart | .task _ (.execute _ _) | .task _ .deliver | .task _ (.arrive _ _)
  | .task _ (.answer _) | .task _ (.lookBack _) | .task _ (.poll _) | .task _ (.escalate _)
  | .task _ (.sign _) | .task _ (.void _ _) | .task _ .recover | .task _ (.recoverNext _)
  | .task _ (.recoverDone _) | .task _ .resume | .task _ .stop => .isTrue trivial

section Steps

variable {w : World} {p : PairKey}

theorem Traced.setNextNonce (h : Traced w) (p : PairKey) (n : Nat) : Traced (w.setNextNonce p n) :=
  ⟨h.rows,h.stored,h.ids,h.distinct,h.pending,h.apart,h.goal,h.honest,h.held,h.todo⟩

/-- What a round writes, and that its success means a committed attempt. -/
theorem Traced.written (h : Traced w) (kind : BindKind) {a : Attempt} {r : Round}
    (hp : (w.tasks p).pending = some a) (hask : Event.AsksOwn w (.task p (.round r))) :
    Traced (w.written a kind r) ∧
      ((r.run w.store w.epoch a kind).1 = .bound → a ∈ (w.written a kind r).bound) := by
  unfold World.written
  rcases r.run_commits w.store w.epoch a kind with ⟨hc,hs⟩ | ⟨hc,hb⟩
  · rw [hs,hc]
    refine ⟨h,fun hbound => ?_⟩
    obtain ⟨hcut,hq,hex⟩ := Round.run_bound hbound hc
    obtain ⟨x,hx,hhash⟩ := List.any_eq_true.mp hex
    obtain ⟨b,hb,hid,-⟩ := h.rows x hx
    have hown := hask a hp hcut hq x hx (of_decide_eq_true hhash)
    rw [(h.pending p a hp).2.2 b hb (hid.symm.trans hown)] at hb
    exact hb
  · rw [hc]
    exact ⟨h.commits hp hb,fun _ => List.mem_cons_self⟩

theorem Traced.notBound (h : Traced w) {goal : Goal} {a : Attempt} {left : Nat}
    (hp : w.tasks p = .binding goal a left) (e : StoreError) :
    Traced (w.setTask p (goal.notBound e)) := by
  rcases goal.notBound_cases e with hr | ⟨f,hf,hfrom⟩
  · exact h.rests hr
  · exact h.goes (by rw [hp]; exact hf) hfrom

theorem Traced.retries (h : Traced w) {goal : Goal} {a : Attempt} {left : Nat}
    (hp : w.tasks p = .binding goal a left) (n : Nat) :
    Traced (w.setTask p (.binding goal a n)) := by
  have hsame : ∀ q, ((w.setTask p (.binding goal a n)).tasks q).pending = (w.tasks q).pending ∧
      ((w.setTask p (.binding goal a n)).tasks q).inFlight = (w.tasks q).inFlight ∧
      ((w.setTask p (.binding goal a n)).tasks q).todo = (w.tasks q).todo := by
    intro q
    rw [w.tasks_setTask]
    split
    · next hq =>
      subst hq
      rw [hp]
      exact ⟨rfl,rfl,rfl⟩
    · exact ⟨rfl,rfl,rfl⟩
  refine ⟨h.rows,h.stored,h.ids,h.distinct,?_,?_,?_,?_,?_,?_⟩
  · exact fun q b hb => h.pending q b ((hsame q).1 ▸ hb)
  · exact fun q q' b b' hb hb' => h.apart q q' b b' ((hsame q).1 ▸ hb) ((hsame q').1 ▸ hb')
  · intro q goal' b left' hq
    rw [w.tasks_setTask] at hq
    split at hq
    · next hqp =>
      subst hqp
      cases hq
      exact h.goal q goal a left hp
    · exact h.goal q goal' b left' hq
  · intro q
    rw [w.tasks_setTask]
    split
    · trivial
    · exact h.honest q
  · exact fun q f hf => h.held q f ((hsame q).2.1 ▸ hf)
  · exact fun q g hg => h.todo q g ((hsame q).2.2 ▸ hg)

theorem Traced.round (h : Traced w) {goal : Goal} {a : Attempt} {left : Nat} {r : Round}
    (hp : w.tasks p = .binding goal a left) (hask : Event.AsksOwn w (.task p (.round r))) :
    Traced (w.round p goal a left r) := by
  obtain ⟨hw,hin⟩ := h.written goal.kind (by rw [hp]; rfl) hask
  have hp' : (w.written a goal.kind r).tasks p = .binding goal a left := hp
  unfold World.round
  dsimp only
  split
  · next hr => exact (hw.setNextNonce p _).bound hp (hin hr)
  · exact hw.notBound hp' _
  · split
    · exact hw.notBound hp' _
    · exact hw.retries hp' _

theorem Traced.void (h : Traced w) {f : InFlight} {mode : VoidMode}
    {disposition : VoidDisposition} (hp : w.tasks p = .voiding f mode disposition) (call : Call)
    (now : Nat) : Traced (w.void p f mode disposition call now) := by
  have hf : f ∈ (w.tasks p).inFlight := by
    rw [hp]
    rfl
  have hs : Traced { w with
      store := (call.answer w.store
        (voidBinding w.store w.epoch f.last mode disposition now)).2 } := by
    rcases call.answer_store w.store (voidBinding w.store w.epoch f.last mode disposition now)
      with hst | ⟨s,hok,hst⟩
    · rw [hst]
      exact h
    · rw [hst]
      exact h.rewritten (dropRow_same _) (dropRow_live _) (voidBinding_spec hok).attempts
  unfold World.void
  dsimp only
  split
  · split
    · exact (hs.setNextNonce p _).goes hf f.done_from
    · split
      · exact hs.rests Activity.rests_down
      · exact hs.goes hf f.done_from
  · exact hs.rests Activity.rests_down
  · exact hs.goes hf (.polling (.rfl' f))

/-- The nonce `resume` starts to drive, or passes over. -/
theorem Traced.resume (h : Traced w) {group : List Attempt} {todo : List (List Attempt)}
    (hg : ∃ n, ∀ a ∈ group, w.Committed (p.slot n) a)
    (ht : ∀ g ∈ todo, ∃ n, ∀ a ∈ g, w.Committed (p.slot n) a) (chain : ChainKind) :
    Traced (w.setTask p (resume chain group todo)) := by
  obtain ⟨hfree,hon,htodo⟩ := resume_pending chain group todo
  refine h.setTask hfree hon ?_ (by rwa [htodo])
  intro f hf a ha
  rcases resume_cases chain group todo with hr | ⟨f',hr,-,-,⟨b,hb,hn⟩,-,hmem⟩
  · rw [hr] at hf
    cases hf
  · rw [hr] at hf
    obtain rfl : f' = f := Option.some.inj hf
    obtain ⟨n,hg⟩ := hg
    have hbn : b.nonce = n := by
      obtain ⟨c,-,hcop,hslot⟩ := hg b hb
      exact congrArg Slot.nonce (hcop.slot.trans hslot)
    obtain ⟨b',hb',rfl⟩ := hmem a ha
    obtain ⟨c,hc,hcop,hslot⟩ := hg b' hb'
    rw [hn,hbn]
    exact ⟨c,hc,⟨hcop.id,hcop.slot,hcop.owner,hcop.txHash,hcop.rawTx⟩,hslot⟩

theorem Traced.recoverNext (h : Traced w) {group : List Attempt} {todo : List (List Attempt)}
    (hp : w.tasks p = .recovering (group :: todo)) (chain : ChainKind) (l : Look) :
    Traced (w.recoverNext chain p group todo l) := by
  have hall : ∀ g ∈ group :: todo, ∃ n, ∀ a ∈ g, w.Committed (p.slot n) a := by
    intro g hg
    exact h.todo p g (by rw [hp]; exact hg)
  have hg := hall group List.mem_cons_self
  have ht : ∀ g ∈ todo, ∃ n, ∀ a ∈ g, w.Committed (p.slot n) a :=
    fun g hg => hall g (List.mem_cons_of_mem _ hg)
  unfold World.recoverNext
  split
  · exact h.resume hg ht chain
  · next a _ =>
    split
    · exact h.setTask rfl trivial (by intro f hf; cases hf) ht
    · exact h.rests Activity.rests_down
    · next call =>
      have hs : Traced { w with
          store := (call.answer w.store (.ok (demoteInclusion w.store a).2)).2 } := by
        rcases call.answer_store w.store (.ok (demoteInclusion w.store a).2)
          with hst | ⟨s,hok,hst⟩
        · rw [hst]
          exact h
        · rw [hst,← Except.ok.inj hok]
          obtain ⟨F,hF,hm⟩ := (demoteInclusion_kept w.store a).attempts
          exact h.rewritten hF.same hF.live hm
      dsimp only
      split
      · exact hs.resume hg ht chain
      · exact hs.rests Activity.rests_down

theorem Traced.recover (h : Traced w) (p : PairKey) : Traced (w.recover p) := by
  unfold World.recover
  split
  · next live hl =>
    refine h.setTask rfl trivial (by intro f hf; cases hf) ?_
    intro g hg
    obtain ⟨n,hn⟩ := byNonce_mem hg
    refine ⟨n,?_⟩
    intro a ha
    obtain ⟨hlive,hnonce⟩ := hn a ha
    obtain ⟨r,hr,hrl,hc,hs,hrow⟩ := loadLive_mem hl hlive
    obtain ⟨b,hb,hid,hof,hraw⟩ := h.rows r hr
    refine ⟨b,hb,.of_row hid hof (hraw hrl) hrow,?_⟩
    have hr : r.nonce = n := (congrArg Slot.nonce (attemptRow_slot hrow)).symm.trans hnonce
    rw [← hof.slot,AttemptRow.slot,PairKey.slot,hc,hs,hr]
  · exact h

theorem Traced.resigns (h : Traced w) {f : InFlight} {t : Activity} {goal : Goal}
    {signed : Option Signature} (hf : f ∈ (w.tasks p).inFlight) (hgoal : goal.inFlight = some f)
    (hid : ∀ g ∈ signed, g.id ∉ w.signed) (ht : f.Resigns p goal signed t) :
    Traced (w.sign p t signed) := by
  rcases ht with rfl | ⟨g,hg,purpose,g',he,rfl⟩
  · have hmore : ∀ x ∈ w.signed, x ∈ signed.elim w.signed fun g => g.id :: w.signed := by
      intro x hx
      cases signed with
      | none => exact hx
      | some g => exact List.mem_cons_of_mem _ hx
    have hw : Traced { w with signed := signed.elim w.signed fun g => g.id :: w.signed } := by
      refine ⟨h.rows,h.stored,fun b hb => hmore _ (h.ids b hb),h.distinct,?_,h.apart,h.goal,
        h.honest,h.held,h.todo⟩
      intro q a ha
      obtain ⟨hs,hrest⟩ := h.pending q a ha
      exact ⟨hmore _ hs,hrest⟩
    exact hw.goes hf (.polling (.rfl' f))
  · obtain rfl : signed = some g := hg
    have hnew : (sign p f.owner f.nonce purpose g').id ∉ w.signed := by
      show g'.id ∉ w.signed
      rw [he]
      exact hid g rfl
    unfold World.sign
    simp only [Option.elim,← he]
    refine h.signs (a := sign p f.owner f.nonce purpose g') hnew rfl ?_
    intro f' hf'
    rw [hgoal] at hf'
    cases hf'
    exact ⟨rfl,hf⟩

theorem Traced.turn (h : Traced w) {chains : ChainId → ChainKind} {i : Input}
    (hi : i.Possible w p) (hask : Event.AsksOwn w (.task p i)) : Traced (w.turn chains p i) := by
  have htakes := w.turn_takes chains p i
  generalize w.turn chains p i = w' at htakes ⊢
  cases htakes with
  | unfit => exact h
  | @execute owner signed hp =>
    cases signed with
    | error e => exact h.rests Activity.rests_signerUnavailable
    | ok g => exact h.signs (hi g rfl) rfl (by intro f hf; cases hf)
  | round hp => exact h.round hp hask
  | deliver | arrive =>
    exact ⟨h.rows,h.stored,h.ids,h.distinct,h.pending,h.apart,h.goal,h.honest,h.held,h.todo⟩
  | @answer a f hp =>
    have hw : Traced { w with dead := a.kills f.last.txHash ++ w.dead } :=
      ⟨h.rows,h.stored,h.ids,h.distinct,h.pending,h.apart,h.goal,h.honest,h.held,h.todo⟩
    exact hw.goes (by rw [hp]; rfl) (f.onAnswer_from _ a)
  | @lookBack found f fresh parks hp =>
    have hon := h.honest p
    rw [hp] at hon
    exact h.goes (by rw [hp]; rfl) (f.onNonceTooLow_from parks found hon)
  | @poll found f hp => exact h.goes (by rw [hp]; rfl) (f.poll_from found)
  | @escalate d f hp hf => exact h.goes (by rw [hp]; rfl) (f.escalate_from _ d)
  | @replace signed f hp =>
    exact h.resigns (by rw [hp]; rfl) rfl hi (f.replace_resigns _ p signed)
  | @cancel signed f hp => exact h.resigns (by rw [hp]; rfl) rfl hi (f.cancel_resigns p signed)
  | @void call now f mode disposition hp => exact h.void hp call now
  | recover hp => exact h.recover p
  | @recoverNext l group todo hp => exact h.recoverNext hp _ l
  | recoverFailed hp =>
    have hs : Traced { w with store := ensurePair w.store p } :=
      ⟨h.rows,h.stored,h.ids,h.distinct,h.pending,h.apart,h.goal,h.honest,h.held,h.todo⟩
    exact hs.rests Activity.rests_down
  | recoverDone hp =>
    have hs : Traced { w with store := ensurePair w.store p } :=
      ⟨h.rows,h.stored,h.ids,h.distinct,h.pending,h.apart,h.goal,h.honest,h.held,h.todo⟩
    exact (hs.setNextNonce p _).rests Activity.rests_idle
  | resume hp => exact h.rests Activity.rests_idle
  | stop hp => exact h.rests Activity.rests_down

theorem Traced.step (h : Traced w) {chains : ChainId → ChainKind} {e : Event}
    (he : e.Possible w) (hask : e.AsksOwn w) : Traced (w.step chains e) := by
  cases e with
  | op o =>
    obtain ⟨F,hF,hm⟩ := (Op.unfenced_kept (s := w.store) (Op.Possible.unfenced he)).attempts
    exact h.rewritten hF.same hF.live hm
  | mine k m =>
    exact ⟨h.rows,h.stored,h.ids,h.distinct,h.pending,h.apart,h.goal,h.honest,h.held,h.todo⟩
  | restart =>
    refine ⟨h.rows,h.stored,h.ids,h.distinct,?_,?_,?_,?_,?_,?_⟩
    · intro p a ha; cases ha
    · intro p q a b ha; cases ha
    · intro p goal a left ha; cases ha
    · intro p; trivial
    · intro p f hf; cases hf
    · intro p g hg; cases hg
  | task p i => exact h.turn he hask

theorem Traced.init : Traced World.init := by
  refine ⟨?_,?_,?_,?_,?_,?_,?_,?_,?_,?_⟩
  · intro r hr; cases hr
  · intro b hb; cases hb
  · intro b hb; cases hb
  · intro b hb; cases hb
  · intro p a ha; cases ha
  · intro p q a b ha; cases ha
  · intro p goal a left ha; cases ha
  · intro p; trivial
  · intro p f hf; cases hf
  · intro p g hg; cases hg

end Steps

/-! ## What was sent was committed -/

/-- A move forgets no committed attempt and is not the chain's; what it hands to the network is
what its task goes on to send. -/
structure World.Airs (w w' : World) (p : PairKey) : Prop where
  bound : w.bound ⊆ w'.bound
  sent : w'.sent = (w'.tasks p).airs ++ w.sent ∨ w'.sent = w.sent
  mined : w'.mined = w.mined

/-- Everything that was sent was committed for its nonce. -/
def Aired (w : World) : Prop :=
  ∀ x ∈ w.sent, ∃ b ∈ w.bound, b.slot = x.1 ∧ b.txHash = x.2

section Sent

variable {w m : World} {p : PairKey}

theorem World.Airs.same : w.Airs w p := ⟨List.Subset.refl _,.inr rfl,rfl⟩

theorem World.Airs.setTask {t : Activity} (hs : m.sent = w.sent) (hb : w.bound ⊆ m.bound)
    (hm : m.mined = w.mined) : w.Airs (m.setTask p t) p := by
  refine ⟨hb,.inl ?_,hm⟩
  rw [World.tasks_setTask,if_pos rfl]
  exact congrArg (t.airs ++ ·) hs

theorem World.Airs.set {t : Activity} (hs : m.sent = w.sent) (hb : m.bound = w.bound)
    (hm : m.mined = w.mined) : w.Airs (m.setTask p t) p :=
  .setTask hs (hb ▸ List.Subset.refl _) hm

theorem World.written_grows (w : World) (a : Attempt) (kind : BindKind) (r : Round) :
    w.bound ⊆ (w.written a kind r).bound := by
  unfold World.written
  split
  · exact List.subset_cons_self a w.bound
  · exact List.Subset.refl _

theorem World.round_airs (w : World) (goal : Goal) (a : Attempt) (left : Nat) (r : Round) :
    w.Airs (w.round p goal a left r) p := by
  have hgrows := w.written_grows a goal.kind r
  unfold World.round
  dsimp only
  split
  · exact .setTask rfl hgrows rfl
  · exact .setTask rfl hgrows rfl
  · split
    · exact .setTask rfl hgrows rfl
    · exact .setTask rfl hgrows rfl

theorem World.void_airs (w : World) (f : InFlight) (mode : VoidMode)
    (disposition : VoidDisposition) (call : Call) (now : Nat) :
    w.Airs (w.void p f mode disposition call now) p := by
  unfold World.void
  dsimp only
  split
  · split
    · exact .set rfl rfl rfl
    · exact .set rfl rfl rfl
  · exact .set rfl rfl rfl
  · exact .set rfl rfl rfl

theorem World.recover_airs (w : World) : w.Airs (w.recover p) p := by
  unfold World.recover
  split
  · exact .set rfl rfl rfl
  · exact .same

theorem World.recoverNext_airs (w : World) (chain : ChainKind) (group : List Attempt)
    (todo : List (List Attempt)) (l : Look) : w.Airs (w.recoverNext chain p group todo l) p := by
  unfold World.recoverNext
  split
  · exact .set rfl rfl rfl
  · cases l with
    | receipt => exact .set rfl rfl rfl
    | failed => exact .set rfl rfl rfl
    | gone call =>
      dsimp only
      split
      · exact .set rfl rfl rfl
      · exact .set rfl rfl rfl

theorem World.turn_airs (chains : ChainId → ChainKind) (w : World) (i : Input) :
    w.Airs (w.turn chains p i) p := by
  have htakes := w.turn_takes chains p i
  generalize w.turn chains p i = w' at htakes ⊢
  cases htakes with
  | unfit => exact .same
  | @execute owner signed hp =>
    cases signed with
    | error e => exact .set rfl rfl rfl
    | ok g => exact .set rfl rfl rfl
  | round hp => exact w.round_airs _ _ _ _
  | deliver | arrive => exact ⟨List.Subset.refl _,.inr rfl,rfl⟩
  | void hp => exact w.void_airs _ _ _ _ _
  | recover hp => exact w.recover_airs
  | recoverNext hp => exact w.recoverNext_airs _ _ _ _
  | _ => exact .set rfl rfl rfl

theorem Traced.airs (h : Traced w) {x : Slot × B256} (hx : x ∈ (w.tasks p).airs) :
    ∃ b ∈ w.bound, b.slot = x.1 ∧ b.txHash = x.2 := by
  cases hp : w.tasks p with
  | sending f =>
    rw [hp] at hx
    obtain rfl := List.mem_singleton.mp hx
    have hlast : f.last ∈ f.attempts := List.mem_append_right _ List.mem_cons_self
    obtain ⟨b,hb,hcop,-⟩ := h.held p f (by rw [hp]; rfl) f.last hlast
    exact ⟨b,hb,hcop.slot.symm,hcop.txHash.symm⟩
  | _ =>
    rw [hp] at hx
    cases hx

theorem Aired.init : Aired World.init := by
  intro x hx
  cases hx

theorem Aired.step {chains : ChainId → ChainKind} {e : Event} (h : Aired w)
    (ht : Traced (w.step chains e)) : Aired (w.step chains e) := by
  cases e with
  | op o => exact h
  | mine k m => exact h
  | restart => exact h
  | task p i =>
    have hairs := w.turn_airs (p := p) chains i
    have hold : ∀ x ∈ w.sent, ∃ b ∈ (w.step chains (.task p i)).bound, b.slot = x.1 ∧
        b.txHash = x.2 := by
      intro x hx
      obtain ⟨b,hb,hx⟩ := h x hx
      exact ⟨b,hairs.bound hb,hx⟩
    intro x hx
    rcases hairs.sent with hs | hs
    · rcases List.mem_append.mp (hs ▸ hx) with hx | hx
      · exact ht.airs hx
      · exact hold x hx
    · exact hold x (hs ▸ hx)

end Sent

/-- The driver, with the bind loop asking about its own attempts only. -/
def askingDriver (chains : ChainId → ChainKind) : Machine World Event :=
  (driver chains).restrict fun w e => e.AsksOwn w

instance (chains : ChainId → ChainKind) (w : World) (e : Event) :
    Decidable ((askingDriver chains).allowed w e) :=
  inferInstanceAs (Decidable (e.Possible w ∧ e.AsksOwn w))

theorem Traced.reaches {chains : ChainId → ChainKind} {w : World}
    (h : (askingDriver chains).Reaches World.init w) : Traced w :=
  h.invariant .init fun _ _ hs he => hs.step he.1 he.2

/-- What a task is about to hand to the network was committed before, as the attempt of
the same nonce and owner, and is stored; and no committed attempt repeats the bytes
of another. -/
structure BoundFirst (w : World) : Prop where
  sends : ∀ p f, w.tasks p = .sending f → ∃ b ∈ w.bound, f.last.Copies b ∧
    b.slot = p.slot f.nonce ∧ ∃ r ∈ w.store.txAttempts.rows, r.id = b.id ∧ r.IsOf b
  once : ∀ b ∈ w.bound, ∀ b' ∈ w.bound, b.txHash = b'.txHash → b = b'

theorem broadcast_bound {chains : ChainId → ChainKind} {w : World}
    (h : (askingDriver chains).Reaches World.init w) : BoundFirst w := by
  have ht := Traced.reaches h
  constructor
  · intro p f hp
    have hlast : f.last ∈ f.attempts := List.mem_append_right _ List.mem_cons_self
    obtain ⟨b,hb,hcop,hslot⟩ := ht.held p f (by rw [hp]; rfl) f.last hlast
    exact ⟨b,hb,hcop,hslot,ht.stored b hb⟩
  · intro b hb b' hb' he
    obtain ⟨r,hr,hid,hof⟩ := ht.stored b hb
    obtain ⟨r',hr',hid',hof'⟩ := ht.stored b' hb'
    obtain rfl := hash_unique hr hr' (hof.txHash.trans (he.trans hof'.txHash.symm))
    exact ht.distinct b hb b' hb' (hid.symm.trans hid')

/-- Job 1 is bound although the answer is lost; the next process takes it over, sends it
again and replaces it. -/
def takenOverRun : List Event :=
  let p := Sample.pair
  Sample.boot ++ [.op (.insertJob 1 Sample.request),
    .task p (.execute (.job 1) (.ok (Sample.signature 3 7))),
    .task p (.round ⟨.lost ⟨.db .io,StoreError.io_transient⟩,.failed⟩),
    .task p (.round ⟨.refused (.db .io),.answered⟩),.restart,.task p .recover,
    .task p (.recoverNext .failed),.task p .deliver,
    .task p (.answer (.error .feeTooLow "underpriced")),
    .task p (.sign (some (Sample.signature 4 8))),.task p Sample.round]

theorem broadcast_bound_restart :
    ∃ w, (askingDriver Sample.chains).Reaches World.init w ∧
      (w.tasks Sample.pair).inFlight.map (fun f => f.attempts.map (·.txHash)) = some [7,8] ∧
      BoundFirst w := by
  have hrun : (askingDriver Sample.chains).Runs World.init takenOverRun := by decide +kernel
  exact ⟨_,hrun.reaches,by decide +kernel,broadcast_bound hrun.reaches⟩

/-- Job 1 is rejected and its nonce released; job 2 asks for the same call, so a
deterministic signer repeats the bytes, and `attempt_exists` finds the row of job 1. -/
def repeatedBytesRun : List Event :=
  let p := Sample.pair
  Sample.boot ++ [.op (.insertJob 1 Sample.request),.op (.insertJob 2 Sample.request),
    .task p (.execute (.job 1) (.ok (Sample.signature 3 7))),.task p Sample.round,
    .task p (.answer (.error .deterministic "intrinsic gas too low")),
    .task p (.void .answered 0),.task p (.execute (.job 2) (.ok (Sample.signature 4 7))),
    .task p (.round ⟨.refused (.db .io),.answered⟩)]

theorem broadcast_unbound :
    ∃ w f, (driver Sample.chains).Reaches World.init w ∧ w.tasks Sample.pair = .sending f ∧
      f.last.owner = .job 2 ∧ (∀ b ∈ w.bound, b.owner ≠ .job 2) ∧ ¬ BoundFirst w := by
  have hrun : (driver Sample.chains).Runs World.init repeatedBytesRun := by decide +kernel
  have hsend : (repeatedBytesRun.foldl (driver Sample.chains).step World.init).tasks Sample.pair =
      .sending (Goal.execute.bound (sign Sample.pair (.job 2) 0 .job (Sample.signature 4 7))) := by
    decide +kernel
  have hno : ∀ b ∈ (repeatedBytesRun.foldl (driver Sample.chains).step World.init).bound,
      b.owner ≠ .job 2 := by
    decide +kernel
  refine ⟨_,_,hrun.reaches,hsend,rfl,hno,?_⟩
  intro h
  obtain ⟨b,hb,hcop,-⟩ := h.sends _ _ hsend
  exact hno b hb hcop.owner.symm

end GumEngine
