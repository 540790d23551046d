import Mathlib

/-!
# Items sorted into buckets

Finitely many items, each in exactly one bucket. `put` brings in a new item or moves one that
is there; the size of every bucket follows.
-/

namespace Sorting

structure Buckets (J P : Type) where
  items : Finset J
  place : J → P

namespace Buckets

variable {J P : Type} (b : Buckets J P)

def put [DecidableEq J] (j : J) (p : P) : Buckets J P := ⟨insert j b.items,Function.update b.place j p⟩

/-- The items of one bucket. -/
def bucket [DecidableEq P] (p : P) : Finset J := b.items.filter fun j => b.place j = p

def size [DecidableEq P] (p : P) : Nat := (b.bucket p).card

/-- The item is there, in this bucket. -/
def In (j : J) (p : P) : Prop := j ∈ b.items ∧ b.place j = p

variable {b} {j k : J} {p q : P}

theorem In.unique (h : b.In j p) (h' : b.In j q) : p = q := h.2.symm.trans h'.2

section Place

variable [DecidableEq J]

theorem in_put_self (b : Buckets J P) (j : J) (p : P) : (b.put j p).In j p :=
  ⟨Finset.mem_insert_self j b.items,Function.update_self ..⟩

theorem in_put_of_ne (h : k ≠ j) : (b.put j p).In k q ↔ b.In k q := by
  show k ∈ insert j b.items ∧ Function.update b.place j p k = q ↔ k ∈ b.items ∧ b.place k = q
  rw [Finset.mem_insert,Function.update_of_ne h]
  simp [h]

end Place

variable [DecidableEq P]

theorem mem_bucket : j ∈ b.bucket p ↔ b.In j p := Finset.mem_filter

theorem size_pos (h : b.In j p) : 0 < b.size p := Finset.card_pos.2 ⟨j,mem_bucket.2 h⟩

/-- Every item is counted in one bucket. -/
theorem sum_size [Fintype P] (b : Buckets J P) : ∑ p, b.size p = b.items.card := by
  have h := Finset.card_eq_sum_card_fiberwise (f := b.place) (s := b.items) (t := Finset.univ)
    fun _ _ => Finset.mem_coe.2 (Finset.mem_univ _)
  rw [h]
  rfl

variable [DecidableEq J]

/-- The bucket of a new item, or of one that was moved, apart from that item. -/
theorem bucket_put_erase : ((b.put j p).bucket q).erase j = (b.bucket q).erase j := by
  ext k
  simp only [Finset.mem_erase,mem_bucket]
  constructor
  · rintro ⟨hk,h⟩
    exact ⟨hk,(in_put_of_ne hk).1 h⟩
  · rintro ⟨hk,h⟩
    exact ⟨hk,(in_put_of_ne hk).2 h⟩

theorem size_eq (b : Buckets J P) (j : J) (q : P) [Decidable (b.In j q)] :
    b.size q = ((b.bucket q).erase j).card+if b.In j q then 1 else 0 := by
  unfold size
  by_cases h : b.In j q
  · rw [if_pos h,Finset.card_erase_add_one (mem_bucket.2 h)]
  · rw [if_neg h,Finset.erase_eq_of_notMem fun hm => h (mem_bucket.1 hm)]
    rfl

open Classical in
theorem size_put (b : Buckets J P) (j : J) (p q : P) :
    (b.put j p).size q+(if b.In j q then 1 else 0) = b.size q+if q = p then 1 else 0 := by
  have hself : (b.put j p).In j q ↔ q = p := by
    constructor
    · exact fun h => h.unique (b.in_put_self j p)
    · rintro rfl
      exact b.in_put_self j q
  rw [size_eq (b.put j p) j q,size_eq b j q,bucket_put_erase,if_congr hself rfl rfl]
  omega

/-- A new item is one more in its bucket. -/
theorem size_put_new (h : j ∉ b.items) (q : P) :
    (b.put j p).size q = b.size q+if q = p then 1 else 0 := by
  classical
  have hsize := b.size_put j p q
  rwa [if_neg fun hin => h hin.1,Nat.add_zero] at hsize

/-- An item that moves is one less in the bucket it leaves. -/
theorem size_put_moved (h : b.In j p) (q r : P) :
    (b.put j q).size r+(if r = p then 1 else 0) = b.size r+if r = q then 1 else 0 := by
  classical
  have hsize := b.size_put j q r
  have hin : b.In j r ↔ r = p := by
    constructor
    · exact fun h' => h'.unique h
    · rintro rfl
      exact h
  rwa [if_congr hin rfl rfl] at hsize

end Buckets

end Sorting
