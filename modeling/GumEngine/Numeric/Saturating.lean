import Mathlib

/-!
# Saturating arithmetic

Unsigned words of `w` bits as naturals, with the operations that stop at the largest word
instead of wrapping around.
-/

namespace Saturating

variable {w a b c d : Nat}

/-- The largest word. -/
def top (w : Nat) : Nat := 2^w-1

def add (w a b : Nat) : Nat := min (a+b) (top w)

def mul (w a b : Nat) : Nat := min (a*b) (top w)

theorem add_mono (hac : a ≤ c) (hbd : b ≤ d) : add w a b ≤ add w c d :=
  min_le_min_right _ (Nat.add_le_add hac hbd)

theorem mul_mono (hac : a ≤ c) (hbd : b ≤ d) : mul w a b ≤ mul w c d :=
  min_le_min_right _ (Nat.mul_le_mul hac hbd)

/-- A sum below the largest word is the sum. -/
theorem add_eq_of_lt_top (h : add w a b < top w) : add w a b = a+b := by
  unfold add at h ⊢
  omega

theorem add_le_top (w a b : Nat) : add w a b ≤ top w := min_le_right _ _

/-- Three words added up, in the order of the source. -/
theorem add_add (w a b c : Nat) : add w (add w a b) c = min (a+b+c) (top w) := by
  unfold add
  omega

/-- A total that stops at the largest word. -/
def sum (w : Nat) (xs : List Nat) : Nat := xs.foldl (add w) 0

theorem foldl_add (xs : List Nat) (h : a ≤ top w) :
    xs.foldl (add w) a = min (a+xs.sum) (top w) := by
  induction xs generalizing a with
  | nil => simp [h]
  | cons x xs ih =>
    rw [List.foldl_cons,ih (add_le_top w a x),List.sum_cons,add]
    omega

theorem sum_eq (w : Nat) (xs : List Nat) : sum w xs = min xs.sum (top w) := by
  rw [sum,foldl_add xs (Nat.zero_le _),Nat.zero_add]

end Saturating
