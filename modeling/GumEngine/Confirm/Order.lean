import GumEngine.Confirm.Held

/-!
# The order of the settle queue

The queue is strictly FIFO. A flush tells the one who queued it that everything before it is
written; until then he queues nothing, so afterwards nothing of his is left in the queue.
-/

namespace GumEngine
open Relational Transition

/-- A write that `w` does not queue: confirmations are the verifier's, and an inclusion
comes from the worker of the pair that signed. -/
def SettleOp.Foreign : Waiter → SettleOp → Prop
  | .verifier,confirmation _ _ => False
  | .recovery p,inclusion a _ _ => a.signer ≠ p
  | w,flush v => v ≠ w
  | _,_ => True

/-- Behind a flush of `w` there is nothing else of `w`. -/
def Barred (w : Waiter) : List SettleOp → Prop
  | [] => True
  | op :: q => (op = .flush w → ∀ o ∈ q, o.Foreign w) ∧ Barred w q

section Queue

variable {w : Waiter} {q : List SettleOp} {op : SettleOp}

theorem SettleOp.Foreign.ne_flush (h : op.Foreign w) : op ≠ .flush w := by
  rintro rfl
  cases w with
  | verifier => exact h rfl
  | recovery p => exact h rfl

theorem Barred.of_quiet (h : .flush w ∉ q) : Barred w q := by
  induction q with
  | nil => trivial
  | cons o q ih =>
    refine ⟨?_,ih fun hm => h (List.mem_cons_of_mem _ hm)⟩
    rintro rfl
    exact absurd List.mem_cons_self h

/-- What others queue comes after. -/
theorem Barred.append {l : List SettleOp} (h : Barred w q) (hl : ∀ o ∈ l, o.Foreign w) :
    Barred w (q ++ l) := by
  induction q with
  | nil => exact .of_quiet fun hm => (hl _ hm).ne_flush rfl
  | cons o q ih =>
    refine ⟨?_,ih h.2⟩
    intro ho x hx
    rcases List.mem_append.mp hx with hx | hx
    · exact h.1 ho x hx
    · exact hl x hx

/-- Anything may follow as long as `w` does not wait. -/
theorem Barred.push_quiet (h : .flush w ∉ q) : Barred w (q ++ [op]) := by
  induction q with
  | nil => exact ⟨fun _ o ho => (by cases ho),trivial⟩
  | cons o q ih =>
    refine ⟨?_,ih fun hm => h (List.mem_cons_of_mem _ hm)⟩
    rintro rfl
    exact absurd List.mem_cons_self h

end Queue

end GumEngine
