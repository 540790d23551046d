import Mathlib

/-!
# Machines and their runs

A machine has a total step function and a guard: the events its environment may
offer in a state. `Reaches` is the reflexive transitive closure of the guarded
step, and `Reaches.invariant` is the induction every safety result goes through.
-/

namespace Transition

variable {S E : Type}

/-- States `S`, events `E`; `allowed s e` says that `e` can happen in `s`. -/
structure Machine (S E : Type) where
  allowed : S → E → Prop
  step : S → E → S

namespace Machine

variable (M : Machine S E)

/-- One allowed step. -/
def Next (s t : S) : Prop := ∃ e, M.allowed s e ∧ t = M.step s e

/-- Any number of allowed steps. -/
def Reaches : S → S → Prop := Relation.ReflTransGen M.Next

/-- The machine whose environment also respects `cond`. -/
def restrict (cond : S → E → Prop) : Machine S E where
  allowed s e := M.allowed s e ∧ cond s e
  step := M.step

variable {M}

instance restrict.decidable {cond : S → E → Prop} [∀ s e, Decidable (M.allowed s e)]
    [∀ s e, Decidable (cond s e)] (s : S) (e : E) : Decidable ((M.restrict cond).allowed s e) :=
  inferInstanceAs (Decidable (M.allowed s e ∧ cond s e))

theorem Reaches.refl (s : S) : M.Reaches s s := Relation.ReflTransGen.refl

theorem Reaches.tail {s t : S} {e : E} (h : M.Reaches s t) (he : M.allowed t e) :
    M.Reaches s (M.step t e) :=
  Relation.ReflTransGen.tail h ⟨e,he,rfl⟩

theorem Reaches.trans {s t u : S} (h : M.Reaches s t) (h' : M.Reaches t u) : M.Reaches s u :=
  Relation.ReflTransGen.trans h h'

/-- Every event of the list is allowed when its turn comes. -/
def Runs (M : Machine S E) : S → List E → Prop
  | _,[] => True
  | s,e :: es => M.allowed s e ∧ M.Runs (M.step s e) es

instance Runs.decidable [∀ s e, Decidable (M.allowed s e)] :
    ∀ (es : List E) (s : S), Decidable (M.Runs s es)
  | [],_ => inferInstanceAs (Decidable True)
  | e :: es,s =>
    have := Runs.decidable es (M.step s e)
    inferInstanceAs (Decidable (M.allowed s e ∧ M.Runs (M.step s e) es))

theorem Runs.reaches {s : S} {es : List E} (h : M.Runs s es) :
    M.Reaches s (es.foldl M.step s) := by
  induction es generalizing s with
  | nil => exact Reaches.refl s
  | cons e es ih => exact ((Reaches.refl s).tail h.1).trans (ih h.2)

/-- What holds initially and survives every allowed step holds in every state reached. -/
theorem Reaches.invariant {I : S → Prop} {s t : S} (h : M.Reaches s t) (h0 : I s)
    (hstep : ∀ s e, I s → M.allowed s e → I (M.step s e)) : I t := by
  induction h with
  | refl => exact h0
  | tail _ hn ih =>
    obtain ⟨e,he,rfl⟩ := hn
    exact hstep _ e ih he

/-- A run keeps a property throughout exactly when all its steps meet the condition that keeps
it in one step. -/
theorem Runs.forall_take_iff {P : S → Prop} {cond : S → E → Prop}
    (hstep : ∀ s e, P s → M.allowed s e → (P (M.step s e) ↔ cond s e)) {s : S} {es : List E}
    (h0 : P s) (h : M.Runs s es) :
    (∀ n, P ((es.take n).foldl M.step s)) ↔ (M.restrict cond).Runs s es := by
  induction es generalizing s with
  | nil => exact ⟨fun _ => trivial,fun _ n => by simpa using h0⟩
  | cons e es ih =>
    constructor
    · intro hall
      have h1 : P (M.step s e) := by simpa using hall 1
      refine ⟨⟨h.1,(hstep s e h0 h.1).1 h1⟩,(ih h1 h.2).1 fun n => ?_⟩
      simpa using hall (n+1)
    · rintro ⟨⟨-,hc⟩,hrest⟩ n
      have h1 : P (M.step s e) := (hstep s e h0 h.1).2 hc
      cases n with
      | zero => simpa using h0
      | succ n => simpa using (ih h1 h.2).2 hrest n

theorem runs_concat {s : S} {es : List E} {e : E} :
    M.Runs s (es++[e]) ↔ M.Runs s es ∧ M.allowed (es.foldl M.step s) e := by
  induction es generalizing s with
  | nil => exact and_comm
  | cons d es ih => exact (and_congr_right fun _ => ih).trans and_assoc.symm

/-- A property of the past holds throughout a run exactly when all its steps meet the condition
that keeps it in one step. -/
theorem Runs.forall_take_past_iff {P : List E → Prop} {cond : S → E → Prop} {s : S}
    {es : List E} (h0 : P [])
    (hstep : ∀ past e, (M.restrict cond).Runs s past → M.allowed (past.foldl M.step s) e →
      (P (past++[e]) ↔ cond (past.foldl M.step s) e)) (h : M.Runs s es) :
    (∀ n, P (es.take n)) ↔ (M.restrict cond).Runs s es := by
  induction es using List.reverseRecOn with
  | nil => exact ⟨fun _ => trivial,fun _ n => by simpa using h0⟩
  | append_singleton past e ih =>
    obtain ⟨hpast,he⟩ := runs_concat.1 h
    constructor
    · intro hall
      have hr : (M.restrict cond).Runs s past := (ih hpast).1 fun n => by
        have hn := hall (min n past.length)
        rwa [List.take_append_of_le_length (min_le_right n past.length),
          ← List.take_eq_take_min] at hn
      have hwhole := hall (past++[e]).length
      rw [List.take_length] at hwhole
      exact runs_concat.2 ⟨hr,he,(hstep past e hr he).1 hwhole⟩
    · intro hr n
      obtain ⟨hrpast,-,hc⟩ := runs_concat.1 hr
      by_cases hn : n ≤ past.length
      · rw [List.take_append_of_le_length hn]
        exact (ih hpast).2 hrpast n
      · rw [List.take_of_length_le (by simp; omega)]
        exact (hstep past e hrpast he).2 hc

end Machine

end Transition
