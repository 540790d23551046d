import Mathlib

/-!
# Numerals in text

How numbers and bytes are printed with digits, in a base of at most sixteen, how digits are read
back, and how a separator keeps fields apart.
-/

namespace Text

/-- The value of a digit; letters of either case are the digits from ten on. -/
def toDigit (b : Nat) (c : Char) : Option Nat :=
  (if '0' ≤ c ∧ c ≤ '9' then some (c.toNat-48)
  else if 'a' ≤ c ∧ c ≤ 'z' then some (c.toNat-87)
  else if 'A' ≤ c ∧ c ≤ 'Z' then some (c.toNat-55)
  else none).filter (· < b)

/-- The digits a text starts with, and what follows them. -/
def readDigits (b : Nat) : List Char → List Nat × List Char
  | [] => ([],[])
  | c :: cs =>
    match toDigit b c with
    | none => ([],c :: cs)
    | some d => (d :: (readDigits b cs).1,(readDigits b cs).2)

/-- The number that digits stand for, the most significant first. -/
def ofDigits (b : Nat) (ds : List Nat) : Nat := ds.foldl (fun n d => n*b+d) 0

/-- Two digits for a byte. -/
def hexByte (byte : UInt8) : List Char :=
  [Nat.digitChar (byte.toNat/16),Nat.digitChar (byte.toNat%16)]

def hexEncode (bytes : List UInt8) : String := .ofList (bytes.flatMap hexByte)

/-- Where the separator comes first, the field ends. -/
theorem append_sep_inj {α : Type} {sep : α} {xs xs' ys ys' : List α} (h : sep ∉ xs)
    (h' : sep ∉ xs') (heq : xs ++ sep :: ys = xs' ++ sep :: ys') : xs = xs' ∧ ys = ys' := by
  induction xs generalizing xs' with
  | nil =>
    cases xs' with
    | nil => exact ⟨rfl,(List.cons.inj heq).2⟩
    | cons x xs' => exact absurd ((List.cons.inj heq).1 ▸ List.mem_cons_self) h'
  | cons x xs ih =>
    cases xs' with
    | nil => exact absurd ((List.cons.inj heq).1 ▸ List.mem_cons_self) h
    | cons x' xs' =>
      obtain ⟨rfl,hrest⟩ := List.cons.inj heq
      obtain ⟨rfl,rfl⟩ := ih (fun hm => h (List.mem_cons_of_mem _ hm))
        (fun hm => h' (List.mem_cons_of_mem _ hm)) hrest
      exact ⟨rfl,rfl⟩

section Digits

variable {b d n m k : Nat} {c : Char} {ds : List Nat} {rest : List Char}

theorem toDigit_digitChar (hb : b ≤ 16) (hd : d < b) : toDigit b d.digitChar = some d := by
  have hread : toDigit 16 d.digitChar = some d := by
    have hd' : d < 16 := hd.trans_le hb
    interval_cases d <;> decide
  rw [toDigit] at hread ⊢
  obtain ⟨hval,-⟩ := Option.filter_eq_some_iff.1 hread
  rw [hval]
  exact Option.filter_eq_some_iff.2 ⟨rfl,decide_eq_true hd⟩

theorem digitChar_injOn (hd : d < 16) (hn : n < 16) (h : d.digitChar = n.digitChar) : d = n := by
  have hread := congrArg (toDigit 16) h
  rw [toDigit_digitChar le_rfl hd,toDigit_digitChar le_rfl hn] at hread
  exact Option.some.inj hread

@[simp] theorem ofDigits_concat : ofDigits b (ds++[d]) = ofDigits b ds*b+d :=
  List.foldl_concat ..

/-- Zeros in front do not count. -/
theorem ofDigits_zeros : ofDigits b (List.replicate k 0 ++ ds) = ofDigits b ds := by
  rw [ofDigits,ofDigits,List.foldl_append]
  congr 1
  induction k with
  | zero => rfl
  | succ k ih =>
    rw [List.replicate_succ,List.foldl_cons,Nat.zero_mul]
    exact ih

/-- What is printed are digits of the number. -/
theorem exists_digits (hb : 1 < b) (n : Nat) :
    ∃ ds, Nat.toDigits b n = ds.map Nat.digitChar ∧ (∀ d ∈ ds, d < b) ∧ ofDigits b ds = n := by
  induction n using Nat.strong_induction_on with
  | _ n ih =>
    by_cases hn : n < b
    · refine ⟨[n],Nat.toDigits_of_lt_base hn,by simpa using hn,?_⟩
      simp [ofDigits]
    · obtain ⟨ds,hds,hlt,hval⟩ := ih (n/b) (Nat.div_lt_self (by omega) hb)
      refine ⟨ds++[n%b],?_,?_,?_⟩
      · rw [Nat.toDigits_of_base_le hb (not_lt.1 hn),hds,List.map_append,List.map_singleton]
      · intro d hd
        obtain hd | hd := List.mem_append.1 hd
        · exact hlt d hd
        · rw [List.mem_singleton.1 hd]
          exact Nat.mod_lt n (by omega)
      · rw [ofDigits_concat,hval,Nat.div_add_mod']

/-- Digits are read up to what is not a digit. -/
theorem readDigits_map (hb : b ≤ 16) (hds : ∀ d ∈ ds, d < b)
    (hrest : ∀ c ∈ rest.head?, toDigit b c = none) :
    readDigits b (ds.map Nat.digitChar ++ rest) = (ds,rest) := by
  induction ds with
  | nil =>
    cases rest with
    | nil => rfl
    | cons c rest =>
      rw [List.map_nil,List.nil_append,readDigits,hrest c rfl]
  | cons d ds ih =>
    rw [List.map_cons,List.cons_append,readDigits,
      toDigit_digitChar hb (hds d List.mem_cons_self),
      ih fun d hd => hds d (List.mem_cons_of_mem _ hd)]

theorem toDigit_isSome_of_mem (hb : 1 < b) (hb' : b ≤ 16) (hc : c ∈ Nat.toDigits b n) :
    (toDigit b c).isSome := by
  obtain ⟨ds,hds,hlt,-⟩ := exists_digits hb n
  rw [hds] at hc
  obtain ⟨d,hd,rfl⟩ := List.mem_map.1 hc
  rw [toDigit_digitChar hb' (hlt d hd)]
  rfl

/-- A number can be told from how it is printed, padded or not. -/
theorem leftpad_toDigits_inj (hb : 1 < b) (hb' : b ≤ 16) :
    (Nat.toDigits b m).leftpad k '0' = (Nat.toDigits b n).leftpad k '0' ↔ m = n := by
  refine ⟨fun h => ?_,fun h => by rw [h]⟩
  -- reading the padded digits gives the number back
  have hread : ∀ n, ofDigits b (readDigits b ((Nat.toDigits b n).leftpad k '0')).1 = n := by
    intro n
    obtain ⟨ds,hds,hlt,hval⟩ := exists_digits hb n
    have hpad : (Nat.toDigits b n).leftpad k '0' =
        (List.replicate (k-ds.length) 0 ++ ds).map Nat.digitChar ++ [] := by
      rw [List.append_nil,List.map_append,List.map_replicate,hds,List.leftpad,List.length_map]
      rfl
    rw [hpad,readDigits_map hb' ?_ (by simp),ofDigits_zeros,hval]
    intro d hd
    obtain hd | hd := List.mem_append.1 hd
    · rw [List.eq_of_mem_replicate hd]
      omega
    · exact hlt d hd
  rw [← hread m,h,hread n]

theorem toDigits_inj (hb : 1 < b) (hb' : b ≤ 16) :
    Nat.toDigits b m = Nat.toDigits b n ↔ m = n := by
  have h := leftpad_toDigits_inj (m := m) (n := n) (k := 0) hb hb'
  simpa [List.leftpad] using h

end Digits

theorem hexByte_inj {x y : UInt8} (h : hexByte x = hexByte y) : x = y := by
  rw [hexByte,hexByte,List.cons.injEq,List.cons.injEq] at h
  have hx := x.toNat_lt
  have hy := y.toNat_lt
  have hhigh := digitChar_injOn (by omega) (by omega) h.1
  have hlow := digitChar_injOn (Nat.mod_lt _ (by omega)) (Nat.mod_lt _ (by omega)) h.2.1
  exact UInt8.toNat_inj.1 (by omega)

theorem hexEncode_injective : Function.Injective hexEncode := by
  intro xs ys h
  replace h : xs.flatMap hexByte = ys.flatMap hexByte := String.ofList_injective h
  induction xs generalizing ys with
  | nil =>
    cases ys with
    | nil => rfl
    | cons y ys => simp [hexByte] at h
  | cons x xs ih =>
    cases ys with
    | nil => simp [hexByte] at h
    | cons y ys =>
      rw [List.flatMap_cons,List.flatMap_cons] at h
      obtain ⟨hhead,htail⟩ := List.append_inj h rfl
      rw [hexByte_inj hhead,ih htail]

theorem toDigit_isSome_of_mem_hexEncode {bytes : List UInt8} {c : Char}
    (hc : c ∈ (hexEncode bytes).toList) : (toDigit 16 c).isSome := by
  rw [hexEncode,String.toList_ofList] at hc
  obtain ⟨x,-,hx⟩ := List.mem_flatMap.1 hc
  have hlt := x.toNat_lt
  have hdigit : ∀ d < 16, (toDigit 16 (Nat.digitChar d)).isSome := fun d hd => by
    rw [toDigit_digitChar le_rfl hd]
    rfl
  simp only [hexByte,List.mem_cons,List.not_mem_nil,or_false] at hx
  obtain rfl | rfl := hx
  · exact hdigit _ (by omega)
  · exact hdigit _ (by omega)

end Text
