import Mathlib

/-!
# Sliding windows on a ring

A ring of `n` slots for amounts that arrive at increasing ticks. Slot `m % n` holds what arrived
at tick `m`, for the `n` ticks up to the head; moving the head clears the slots it passes.
-/

namespace Sliding

/-- What arrived at the times that satisfy `p`; an entry is a time and an amount. -/
def amount {T : Type} (p : T → Prop) [DecidablePred p] (log : List (T × Nat)) : Nat :=
  (log.map fun x => if p x.1 then x.2 else 0).sum

section Amount

variable {T : Type} {p q : T → Prop} [DecidablePred p] [DecidablePred q] {log : List (T × Nat)}

theorem amount_append (log log' : List (T × Nat)) :
    amount p (log++log') = amount p log+amount p log' := by
  rw [amount,List.map_append,List.sum_append]
  rfl

theorem amount_singleton (x : T × Nat) : amount p [x] = if p x.1 then x.2 else 0 := by
  simp [amount]

theorem amount_congr (h : ∀ x ∈ log, p x.1 ↔ q x.1) : amount p log = amount q log := by
  refine congrArg List.sum (List.map_congr_left fun x hx => ?_)
  rw [if_congr (h x hx) rfl rfl]

theorem amount_eq_zero (h : ∀ x ∈ log, ¬p x.1) : amount p log = 0 := by
  refine List.sum_eq_zero fun y hy => ?_
  obtain ⟨x,hx,rfl⟩ := List.mem_map.1 hy
  exact if_neg (h x hx)

/-- What satisfies `p` is what satisfies `q` and the rest. -/
theorem amount_split (hpq : ∀ m, q m → p m) (log : List (T × Nat)) :
    amount p log = amount q log+amount (fun m => p m ∧ ¬q m) log := by
  induction log with
  | nil => rfl
  | cons x log ih =>
    simp only [amount,List.map_cons,List.sum_cons] at ih ⊢
    rw [ih]
    by_cases hq : q x.1
    · simp only [hq,hpq x.1 hq,not_true,and_false,if_true,if_false]
      omega
    · by_cases hp : p x.1
      · simp only [hp,hq,not_false_iff,and_true,if_true,if_false]
        omega
      · simp only [hp,hq,false_and,if_false]
        omega

/-- An amount is zero when nothing of it is worth anything. -/
theorem amount_eq_zero_iff : amount p log = 0 ↔ ∀ x ∈ log, p x.1 → x.2 = 0 := by
  rw [amount,List.sum_eq_zero_iff]
  constructor
  · intro h x hx hp
    have := h _ (List.mem_map.2 ⟨x,hx,rfl⟩)
    rwa [if_pos hp] at this
  · intro h y hy
    obtain ⟨x,hx,rfl⟩ := List.mem_map.1 hy
    by_cases hp : p x.1
    · rw [if_pos hp,h x hx hp]
    · rw [if_neg hp]

end Amount

variable {n : Nat} [NeZero n]

variable (n) in
/-- The slot of a tick. -/
def slot (m : Nat) : Fin n := ⟨m%n,Nat.mod_lt m (NeZero.pos n)⟩

/-- Clears the slots of the `gap` ticks after `head`, in their order. -/
def clear (r : Fin n → Nat) (head : Nat) : Nat → Fin n → Nat
  | 0 => r
  | gap+1 => Function.update (clear r head gap) (slot n (head+(gap+1))) 0

/-- The ring holds the window up to `head`. -/
def Holds (r : Fin n → Nat) (head : Nat) (log : List (Nat × Nat)) : Prop :=
  ∀ i, r i = amount (fun m => slot n m = i ∧ head < m+n) log

section Ring

variable {r : Fin n → Nat} {head now gap : Nat} {log : List (Nat × Nat)} {i : Fin n}

theorem clear_of_passed {j : Nat} (h1 : 1 ≤ j) (hj : j ≤ gap) :
    clear r head gap (slot n (head+j)) = 0 := by
  induction gap with
  | zero => omega
  | succ gap ih =>
    by_cases hslot : slot n (head+j) = slot n (head+(gap+1))
    · rw [clear,hslot,Function.update_self]
    · have hne : j ≠ gap+1 := fun h => hslot (by rw [h])
      rw [clear,Function.update_of_ne hslot]
      exact ih (by omega)

theorem clear_of_not_passed (h : ∀ j, 1 ≤ j → j ≤ gap → slot n (head+j) ≠ i) :
    clear r head gap i = r i := by
  induction gap with
  | zero => rfl
  | succ gap ih =>
    rw [clear,Function.update_of_ne (h (gap+1) (by omega) le_rfl).symm]
    exact ih fun j h1 hj => h j h1 (by omega)

theorem Holds.empty (head : Nat) : Holds (fun _ : Fin n => 0) head [] := fun _ => rfl

/-- Two ticks of one slot are a multiple of `n` apart. -/
theorem le_of_slot_eq {m k : Nat} (h : slot n m = slot n k) (hlt : m < k) : m+n ≤ k := by
  have hmod : m%n = k%n := congrArg Fin.val h
  obtain ⟨d,hd⟩ : n ∣ k-m := (Nat.modEq_iff_dvd' hlt.le).1 hmod
  have hd0 : d ≠ 0 := by
    rintro rfl
    omega
  have hle : n*1 ≤ n*d := Nat.mul_le_mul_left n (Nat.pos_of_ne_zero hd0)
  omega

/-- The head moves on to `now`: the slots it passes are those whose tick leaves the window. -/
theorem Holds.advance (h : Holds r head log) (hlog : ∀ x ∈ log, x.1 ≤ head) (hnow : head ≤ now) :
    Holds (clear r head (min (now-head) n)) now log := by
  intro i
  by_cases hpassed : ∃ j, 1 ≤ j ∧ j ≤ min (now-head) n ∧ slot n (head+j) = i
  · obtain ⟨j,h1,hj,rfl⟩ := hpassed
    rw [clear_of_passed h1 hj]
    refine (amount_eq_zero ?_).symm
    rintro x hx ⟨hslot,hwin⟩
    -- a tick of that slot is a whole turn back
    have hx' := hlog x hx
    have hturn := le_of_slot_eq hslot (by omega)
    omega
  · rw [clear_of_not_passed fun j h1 hj heq => hpassed ⟨j,h1,hj,heq⟩,h i]
    refine amount_congr fun x hx => and_congr_right fun hslot => ?_
    refine ⟨fun hwin => ?_,fun hwin => by omega⟩
    by_contra hout
    have hx' := hlog x hx
    -- its slot would have been passed
    refine hpassed ⟨x.1+n-head,by omega,by omega,?_⟩
    rw [← hslot]
    refine Fin.ext ?_
    show (head+(x.1+n-head))%n = x.1%n
    rw [show head+(x.1+n-head) = x.1+n by omega,Nat.add_mod_right]

theorem Holds.add (h : Holds r head log) (a : Nat) :
    Holds (Function.update r (slot n head) (r (slot n head)+a)) head (log++[(head,a)]) := by
  intro i
  have hn := NeZero.pos n
  rw [amount_append,amount_singleton]
  by_cases hi : i = slot n head
  · subst hi
    rw [Function.update_self,h,if_pos ⟨rfl,by omega⟩]
  · rw [Function.update_of_ne hi,h,if_neg fun hc => hi hc.1.symm,Nat.add_zero]

/-- The sum of the slots is the window. -/
theorem Holds.sum (h : Holds r head log) : ∑ i, r i = amount (fun m => head < m+n) log := by
  have hsum : ∑ i, r i = ∑ i, amount (fun m => slot n m = i ∧ head < m+n) log :=
    Finset.sum_congr rfl fun i _ => h i
  rw [hsum]
  clear hsum h
  induction log with
  | nil => simp [amount]
  | cons x log ih =>
    simp only [amount,List.map_cons,List.sum_cons,Finset.sum_add_distrib] at ih ⊢
    rw [ih]
    congr 1
    by_cases hwin : head < x.1+n
    · simp [hwin]
    · simp [hwin]

end Ring

end Sliding
