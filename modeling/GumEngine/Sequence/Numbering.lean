import Mathlib

/-!
# Numbers handed out in order

Numbers are taken one after the other, and the one taken last may be given back. A mark
remembers the highest number taken, so that the next one is known without a search; some
numbers were used up by others and are passed over. The numbering is dense: nothing below
the mark is free.
-/

namespace Sequence

/-- Which numbers are taken, which were passed over, and the mark. -/
@[ext] structure Numbering where
  taken : Set ℕ
  passed : Set ℕ
  mark : Option ℕ

namespace Numbering

/-- The number after the mark. -/
def after (b : Numbering) : ℕ := b.mark.elim 0 (· + 1)

/-- Takes `n`; the mark never falls. -/
def take (b : Numbering) (n : ℕ) : Numbering where
  taken := insert n b.taken
  passed := b.passed
  mark := some (b.mark.elim n (max · n))

/-- Gives `n` back; the mark steps down when it stood at `n`. -/
def release (b : Numbering) (n : ℕ) : Numbering where
  taken := b.taken \ {n}
  passed := b.passed
  mark := if b.mark = some n then (if n = 0 then none else some (n - 1)) else b.mark

/-- All that is taken lies below the mark, and below the mark nothing is free. -/
structure Dense (b : Numbering) : Prop where
  below : ∀ n ∈ b.taken, n < b.after
  filled : ∀ n < b.after, n ∈ b.taken ∨ n ∈ b.passed

/-- `n` is past the mark and everything below it is used. -/
structure Next (b : Numbering) (n : ℕ) : Prop where
  mark : b.after ≤ n
  filled : ∀ m < n, m ∈ b.taken ∨ m ∈ b.passed

variable {b : Numbering} {n : ℕ}

theorem Dense.lt_next (h : b.Dense) (hn : b.Next n) {m : ℕ} (hm : m ∈ b.taken) : m < n :=
  (h.below m hm).trans_le hn.mark

theorem Dense.next_after (h : b.Dense) : b.Next b.after := ⟨le_rfl,h.filled⟩

/-- What others used up may be skipped. -/
theorem Next.succ (h : b.Next n) (hn : n ∈ b.passed) : b.Next (n + 1) := by
  refine ⟨h.mark.trans n.le_succ,?_⟩
  intro m hm
  obtain hm | rfl : m < n ∨ m = n := by omega
  · exact h.filled m hm
  · exact .inr hn

/-- The next number from the mark and from a number below which all is passed. -/
theorem Dense.next_max (h : b.Dense) {c : ℕ} (hc : ∀ m < c, m ∈ b.passed) :
    b.Next (max c b.after) := by
  refine ⟨le_max_right _ _,?_⟩
  intro m hm
  rcases lt_max_iff.mp hm with hm | hm
  · exact .inr (hc m hm)
  · exact h.filled m hm

/-- Taking the next number moves the mark onto it. -/
theorem Next.take_mark (h : b.Next n) : (b.take n).mark = some n := by
  have hmark := h.mark
  unfold after at hmark
  unfold take
  cases hb : b.mark with
  | none => rfl
  | some k =>
    rw [hb,Option.elim_some] at hmark
    have hk : max k n = n := max_eq_right (by omega)
    rw [Option.elim_some,hk]

theorem Next.take_after (h : b.Next n) : (b.take n).after = n + 1 := by
  rw [after,h.take_mark,Option.elim_some]

theorem Next.take_dense (hb : b.Dense) (h : b.Next n) : (b.take n).Dense := by
  constructor
  · intro m hm
    rw [h.take_after]
    rcases Set.mem_insert_iff.mp hm with rfl | hm
    · exact m.lt_succ_self
    · exact (hb.lt_next h hm).trans n.lt_succ_self
  · intro m hm
    rw [h.take_after] at hm
    obtain hm | rfl : m < n ∨ m = n := by omega
    · exact (h.filled m hm).imp_left (Set.mem_insert_of_mem n)
    · exact .inl (Set.mem_insert _ _)

/-- A number that is taken is not taken again. -/
theorem Dense.take_taken (hb : b.Dense) (hn : n ∈ b.taken) : b.take n = b := by
  have hlt := hb.below n hn
  unfold after at hlt
  have hmark : some (b.mark.elim n (max · n)) = b.mark := by
    cases hb : b.mark with
    | none =>
      rw [hb] at hlt
      exact absurd hlt (Nat.not_lt_zero n)
    | some k =>
      rw [hb,Option.elim_some] at hlt
      rw [Option.elim_some,max_eq_left (Nat.lt_succ_iff.mp hlt)]
  exact Numbering.ext (Set.insert_eq_of_mem hn) rfl hmark

theorem mark_of_after (h : b.after = n + 1) : b.mark = some n := by
  unfold after at h
  cases hb : b.mark with
  | none =>
    rw [hb] at h
    exact absurd h (Nat.succ_ne_zero n).symm
  | some k =>
    rw [hb,Option.elim_some] at h
    rw [Nat.succ.inj h]

theorem release_after (h : b.after = n + 1) : (b.release n).after = n := by
  unfold release after
  rw [mark_of_after h,if_pos rfl]
  split
  · next hn => exact hn.symm
  · next hn =>
    rw [Option.elim_some]
    omega

/-- Giving back the number at the mark leaves no gap. -/
theorem Dense.release (hb : b.Dense) (h : b.after = n + 1) : (b.release n).Dense := by
  constructor
  · rintro m ⟨hm,hne⟩
    have hlt := hb.below m hm
    rw [release_after h]
    rw [h] at hlt
    exact lt_of_le_of_ne (Nat.lt_succ_iff.mp hlt) hne
  · rw [release_after h]
    intro m hm
    refine (hb.filled m (by omega)).imp_left fun ht => ⟨ht,?_⟩
    exact Nat.ne_of_lt hm

/-- The number after the mark is not held, so giving it back changes nothing. -/
theorem Dense.release_after_eq (hb : b.Dense) (h : b.after = n) : b.release n = b := by
  have hfree : n ∉ b.taken := fun hn => (h ▸ hb.below n hn).false
  have hmark : b.mark ≠ some n := by
    intro hm
    rw [after,hm,Option.elim_some] at h
    omega
  exact Numbering.ext (Set.sdiff_singleton_eq_self hfree) rfl (if_neg hmark)

/-- More numbers used up by others. -/
def pass (b : Numbering) (more : Set ℕ) : Numbering := { b with passed := b.passed ∪ more }

theorem Dense.pass (h : b.Dense) (more : Set ℕ) : (b.pass more).Dense :=
  ⟨h.below,fun m hm => (h.filled m hm).imp_right .inl⟩

theorem Next.pass (h : b.Next n) (more : Set ℕ) : (b.pass more).Next n :=
  ⟨h.mark,fun m hm => (h.filled m hm).imp_right .inl⟩

/-- All that is taken lies below the mark; gaps may be left. -/
def Below (b : Numbering) : Prop := ∀ n ∈ b.taken, n < b.after

theorem Below.take (h : b.Below) (n : ℕ) : (b.take n).Below := by
  have hmark : (b.take n).after = max b.after (n+1) := by
    unfold Numbering.take after
    cases b.mark with
    | none => exact (max_eq_right (Nat.zero_le (n+1))).symm
    | some k =>
      rw [Option.elim_some,Option.elim_some,Option.elim_some]
      omega
  intro m hm
  rw [hmark]
  rcases Set.mem_insert_iff.mp hm with rfl | hm
  · exact (Nat.lt_succ_self m).trans_le (le_max_right _ _)
  · exact (h m hm).trans_le (le_max_left _ _)

/-- The mark steps down from `n` only, and `n` is gone then. -/
theorem Below.release (h : b.Below) (n : ℕ) : (b.release n).Below := by
  rintro m ⟨hm,hne⟩
  have hlt := h m hm
  by_cases hmark : b.mark = some n
  · have hafter : b.after = n+1 := by rw [after,hmark,Option.elim_some]
    rw [release_after hafter]
    rw [hafter] at hlt
    exact lt_of_le_of_ne (Nat.lt_succ_iff.mp hlt) hne
  · have hsame : (b.release n).after = b.after := by
      unfold Numbering.release after
      rw [if_neg hmark]
    rwa [hsame]

end Numbering

end Sequence
