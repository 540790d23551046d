import Mathlib

/-!
# Tables with uniqueness constraints

A relational table as its rows in insertion order, no two of which violate a
uniqueness constraint. All constraints of a table (primary key, unique column,
partial unique index) are one relation `clash`. The statements of SQL that a
store issues are functions on tables: an insert that fails on a clash, a
conditional update, the update of one row with its new value returned, and a
conditional delete.
-/

namespace Relational

variable {R K : Type} {clash : R → R → Prop}

/-- Rows in insertion order; `clash` holds of rows that may not stand together. -/
structure Table (clash : R → R → Prop) where
  rows : List R
  unique : rows.Pairwise fun a b => ¬ clash a b

/-- A table with primary key `key`. -/
abbrev Keyed (key : R → K) := Table fun a b => key a = key b

/-- The row after `UPDATE .. SET f WHERE p`. -/
def rewrite (p : R → Bool) (f : R → R) (r : R) : R := if p r then f r else r

theorem rewrite_of {p : R → Bool} {f : R → R} {r : R} (h : p r = true) :
    rewrite p f r = f r := by simp [rewrite,h]

theorem rewrite_of_not {p : R → Bool} {f : R → R} {r : R} (h : ¬ p r = true) :
    rewrite p f r = r := by simp [rewrite,h]

/-- A column that `f` leaves alone survives the update. -/
theorem rewrite_same {α : Type} {p : R → Bool} {f : R → R} (c : R → α)
    (h : ∀ r, p r = true → c (f r) = c r) (r : R) : c (rewrite p f r) = c r := by
  unfold rewrite
  split
  · next hp => exact h r hp
  · rfl

/-- An update that selects no row changes nothing. -/
theorem map_rewrite_none {rows : List R} {p : R → Bool} {f : R → R}
    (h : ∀ r ∈ rows, ¬ p r = true) : rows.map (rewrite p f) = rows := by
  rw [List.map_congr_left (fun r hr => rewrite_of_not (h r hr))]
  exact List.map_id' rows

namespace Table

/-- Updated rows clash only where the rows they come from did. -/
def update (t : Table clash) (p : R → Bool) (f : R → R)
    (h : ∀ a b, clash (rewrite p f a) (rewrite p f b) → clash a b) : Table clash where
  rows := t.rows.map (rewrite p f)
  unique := by
    rw [List.pairwise_map]
    exact t.unique.imp fun hab hc => hab (h _ _ hc)

@[simp] theorem update_rows (t : Table clash) (p : R → Bool) (f : R → R)
    (h : ∀ a b, clash (rewrite p f a) (rewrite p f b) → clash a b) :
    (t.update p f h).rows = t.rows.map (rewrite p f) := rfl

/-- An update that may break a constraint; `none` is the database's refusal. -/
def tryUpdate [DecidableRel clash] (t : Table clash) (p : R → Bool) (f : R → R) :
    Option (Table clash) :=
  if h : (t.rows.map (rewrite p f)).Pairwise fun a b => ¬ clash a b then
    some ⟨t.rows.map (rewrite p f),h⟩
  else none

theorem tryUpdate_rows [DecidableRel clash] {t u : Table clash} {p : R → Bool} {f : R → R}
    (h : t.tryUpdate p f = some u) : u.rows = t.rows.map (rewrite p f) := by
  unfold tryUpdate at h
  split at h
  · cases h; rfl
  · cases h

/-- `INSERT`; `none` when the new row clashes with a stored one. -/
def insert [DecidableRel clash] (t : Table clash) (r : R) : Option (Table clash) :=
  if h : ∀ b ∈ t.rows, ¬ clash b r then
    some ⟨t.rows ++ [r],by
      refine List.pairwise_append.mpr ⟨t.unique,List.pairwise_singleton _ _,?_⟩
      intro a ha b hb
      rw [List.mem_singleton.mp hb]
      exact h a ha⟩
  else none

theorem insert_eq_some [DecidableRel clash] {t u : Table clash} {r : R}
    (h : t.insert r = some u) : u.rows = t.rows ++ [r] ∧ ∀ b ∈ t.rows, ¬ clash b r := by
  unfold insert at h
  split at h
  · next hr => cases h; exact ⟨rfl,hr⟩
  · cases h

/-- `DELETE .. WHERE p`. -/
def delete (t : Table clash) (p : R → Bool) : Table clash where
  rows := t.rows.filter fun r => !p r
  unique := t.unique.sublist List.filter_sublist

@[simp] theorem delete_rows (t : Table clash) (p : R → Bool) :
    (t.delete p).rows = t.rows.filter fun r => !p r := rfl

/-- The update of the row selected by `p`, with its new value (`RETURNING`);
`none` when no row is selected. -/
def updateReturning (t : Table clash) (p : R → Bool) (f : R → R)
    (h : ∀ a b, clash (rewrite p f a) (rewrite p f b) → clash a b) :
    Option (R × Table clash) :=
  (t.rows.find? p).map fun r => (f r,t.update p f h)

theorem updateReturning_eq_some {t u : Table clash} {p : R → Bool} {f : R → R}
    {h : ∀ a b, clash (rewrite p f a) (rewrite p f b) → clash a b} {r' : R}
    (hu : t.updateReturning p f h = some (r',u)) :
    (∃ r ∈ t.rows, p r = true ∧ r' = f r) ∧ u = t.update p f h := by
  unfold updateReturning at hu
  cases hf : t.rows.find? p with
  | none => simp [hf] at hu
  | some r =>
    simp only [hf,Option.map_some,Option.some.injEq,Prod.mk.injEq] at hu
    exact ⟨⟨r,List.mem_of_find?_eq_some hf,List.find?_some hf,hu.1.symm⟩,hu.2.symm⟩

theorem updateReturning_eq_none {t : Table clash} {p : R → Bool} {f : R → R}
    {h : ∀ a b, clash (rewrite p f a) (rewrite p f b) → clash a b} :
    t.updateReturning p f h = none ↔ ∀ r ∈ t.rows, ¬ p r = true := by
  simp [updateReturning]

/-- Two rows that clash are the same row, when `clash` is symmetric. -/
theorem eq_of_clash (t : Table clash) (hs : ∀ a b, clash a b → clash b a) {a b : R}
    (ha : a ∈ t.rows) (hb : b ∈ t.rows) (hc : clash a b) : a = b := by
  by_contra hne
  have : Std.Symm fun a b => ¬ clash a b := ⟨fun a b h hba => h (hs b a hba)⟩
  exact t.unique.forall ha hb hne hc

end Table

namespace Keyed

variable {key : R → K}

theorem eq_of_key (t : Keyed key) {a b : R} (ha : a ∈ t.rows) (hb : b ∈ t.rows)
    (h : key a = key b) : a = b :=
  t.eq_of_clash (fun _ _ h => h.symm) ha hb h

theorem find_of_mem [DecidableEq K] (t : Keyed key) {r : R} {k : K} (hr : r ∈ t.rows)
    (hk : key r = k) : t.rows.find? (fun x => key x = k) = some r := by
  cases hf : t.rows.find? (fun x => key x = k) with
  | none => exact absurd hk (by simpa using List.find?_eq_none.mp hf r hr)
  | some b =>
    have hb : key b = k := by simpa using List.find?_some hf
    rw [t.eq_of_key (List.mem_of_find?_eq_some hf) hr (hb.trans hk.symm)]

/-- The rows with the row of `r`'s key replaced by `r'`. -/
def put [DecidableEq K] (key : R → K) (rows : List R) (r r' : R) : List R :=
  rows.map (rewrite (fun x => key x = key r) fun _ => r')

/-- An update restricted to one key replaces the one row it selects. -/
theorem map_rewrite_one [DecidableEq K] (t : Keyed key) {p : R → Bool} {f : R → R} {r : R}
    (hr : r ∈ t.rows) (hp : p r = true) (hk : ∀ x, p x = true → key x = key r) :
    t.rows.map (rewrite p f) = put key t.rows r (f r) := by
  apply List.map_congr_left
  intro x hx
  by_cases hxr : key x = key r
  · rw [t.eq_of_key hx hr hxr,rewrite_of hp,rewrite_of (by simp)]
  · rw [rewrite_of_not (fun h => hxr (hk x h)),rewrite_of_not (by simpa using hxr)]

theorem mem_put [DecidableEq K] (t : Keyed key) {r r' x : R} (hr : r ∈ t.rows) :
    x ∈ put key t.rows r r' ↔ x = r' ∨ x ∈ t.rows ∧ key x ≠ key r := by
  unfold put
  rw [List.mem_map]
  constructor
  · rintro ⟨y,hy,rfl⟩
    by_cases hyr : key y = key r
    · exact .inl (rewrite_of (by simpa using hyr))
    · rw [rewrite_of_not (by simpa using hyr)]
      exact .inr ⟨hy,hyr⟩
  · rintro (rfl | ⟨hx,hne⟩)
    · exact ⟨r,hr,rewrite_of (by simp)⟩
    · exact ⟨x,hx,rewrite_of_not (by simpa using hne)⟩

/-- An update that keeps the key. -/
abbrev update (t : Keyed key) (p : R → Bool) (f : R → R)
    (hf : ∀ r, key (f r) = key r) : Keyed key :=
  Table.update t p f fun a b h => by
    rwa [rewrite_same key (fun r _ => hf r),rewrite_same key (fun r _ => hf r)] at h

abbrev updateReturning (t : Keyed key) (p : R → Bool) (f : R → R)
    (hf : ∀ r, key (f r) = key r) : Option (R × Keyed key) :=
  Table.updateReturning t p f fun a b h => by
    rwa [rewrite_same key (fun r _ => hf r),rewrite_same key (fun r _ => hf r)] at h

/-- `INSERT .. ON CONFLICT DO UPDATE`: `fresh` when the key is new, else `f`. -/
def upsert [DecidableEq K] (t : Keyed key) (fresh : R) (f : R → R)
    (hf : ∀ r, key (f r) = key r) : Keyed key :=
  (Table.insert t fresh).getD (t.update (fun r => key r = key fresh) f hf)

end Keyed

section Lookups

variable {key : R → K} [DecidableEq K]

/-- A lookup after an upsert. -/
theorem Keyed.find_upsert (t : Keyed key) (fresh : R) (f : R → R)
    (hf : ∀ r, key (f r) = key r) (k : K) :
    (Keyed.upsert t fresh f hf).rows.find? (fun r => key r = k) =
      if k = key fresh then some ((t.rows.find? fun r => key r = k).elim fresh f)
      else t.rows.find? fun r => key r = k := by
  unfold Keyed.upsert
  cases hi : Table.insert t fresh with
  | some u =>
    obtain ⟨hrows,hfresh⟩ := Table.insert_eq_some hi
    rw [Option.getD_some,hrows,List.find?_append]
    split
    · next hk =>
      subst hk
      have hnone : t.rows.find? (fun r => key r = key fresh) = none := by
        rw [List.find?_eq_none]
        intro r hr
        simpa using hfresh r hr
      simp [hnone]
    · next hk =>
      have hne : ¬ key fresh = k := fun h => hk h.symm
      simp [hne]
  | none =>
    -- the update keeps keys, so it finds the rewritten row of the same key
    have hkey : (fun r => decide (key r = k)) ∘ rewrite (fun r => key r = key fresh) f =
        fun r => decide (key r = k) := by
      funext r
      rw [Function.comp_apply,rewrite_same key (fun r _ => hf r)]
    rw [Option.getD_none,Table.update_rows,List.find?_map,hkey]
    cases hfind : t.rows.find? (fun r => key r = k) with
    | none =>
      have hclash : ∃ b ∈ t.rows, key b = key fresh := by
        by_contra hno
        push Not at hno
        simp [Table.insert,dif_pos hno] at hi
      obtain ⟨b,hb,hbk⟩ := hclash
      have hne : k ≠ key fresh := by
        rintro rfl
        simpa [hbk] using List.find?_eq_none.mp hfind b hb
      simp [hne]
    | some r =>
      have hrk : key r = k := by simpa using List.find?_some hfind
      split
      · next hk => simp [rewrite,hrk,hk]
      · next hk => simp [rewrite,hrk,hk]

/-- After an upsert its key is taken. -/
theorem Keyed.upsert_mem (t : Keyed key) (fresh : R) (f : R → R)
    (hf : ∀ r, key (f r) = key r) :
    ∃ r ∈ (Keyed.upsert t fresh f hf).rows, key r = key fresh := by
  have hfind := Keyed.find_upsert t fresh f hf (key fresh)
  rw [if_pos rfl] at hfind
  exact ⟨_,List.mem_of_find?_eq_some hfind,by simpa using List.find?_some hfind⟩

end Lookups

section Sums

/-- A total over the rows selected by `p`, as a sum over all rows. -/
theorem sum_filter (p : R → Bool) (w : R → Nat) (rows : List R) :
    ((rows.filter p).map w).sum = (rows.map fun r => if p r then w r else 0).sum := by
  induction rows with
  | nil => rfl
  | cons r rows ih =>
    by_cases hp : p r = true
    · simp [hp,ih]
    · simp [hp,ih]

/-- A change that leaves every weight alone keeps the total. -/
theorem sum_map_same {w : R → Nat} {F : R → R} {rows : List R}
    (h : ∀ x ∈ rows, w (F x) = w x) : ((rows.map F).map w).sum = (rows.map w).sum := by
  rw [List.map_map]
  exact congrArg List.sum (List.map_congr_left h)

/-- A change that leaves every weight alone but one moves the total by that one. -/
theorem sum_map_one {w : R → Nat} {F : R → R} {rows : List R} {r : R} (hu : rows.Nodup)
    (hr : r ∈ rows) (h : ∀ x ∈ rows, x ≠ r → w (F x) = w x) :
    ((rows.map F).map w).sum + w r = (rows.map w).sum + w (F r) := by
  induction rows with
  | nil => cases hr
  | cons x rows ih =>
    obtain ⟨hx,hu⟩ := List.nodup_cons.mp hu
    simp only [List.map_cons,List.sum_cons]
    rcases List.mem_cons.mp hr with rfl | hr
    · have hsame : ((rows.map F).map w).sum = (rows.map w).sum := sum_map_same fun y hy =>
        h y (List.mem_cons_of_mem _ hy) (by rintro rfl; exact hx hy)
      rw [hsame]
      omega
    · have hne : x ≠ r := by
        rintro rfl
        exact hx hr
      have := ih hu hr fun y hy => h y (List.mem_cons_of_mem _ hy)
      rw [h x List.mem_cons_self hne]
      omega

theorem Table.nodup (t : Table clash) (hrefl : ∀ a, clash a a) : t.rows.Nodup := by
  refine t.unique.imp ?_
  rintro a b hab rfl
  exact hab (hrefl a)

end Sums

end Relational
