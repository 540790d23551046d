import GumEngine.Net.Address

/-!
# Printed addresses are read back

One lemma for each reader on what the printer makes for it, then the two kinds of addresses.
-/

namespace Net
open Text

section Readers

variable {radix maxDigits size n : Nat} {allow : Bool} {cs rest : List Char} {sep : Char}

/-- A number is read up to what is not a digit. -/
theorem readNumber_toDigits (hr : 1 < radix) (hr' : radix ≤ 16) (hn : n < size)
    (hlen : (Nat.toDigits radix n).length ≤ maxDigits)
    (hzero : allow = true ∨
      ((Nat.toDigits radix n).head? = some '0' → (Nat.toDigits radix n).length ≤ 1))
    (hrest : ∀ c ∈ rest.head?, toDigit radix c = none) :
    readNumber radix maxDigits allow size (Nat.toDigits radix n ++ rest) = some (n,rest) := by
  obtain ⟨ds,hds,hlt,hval⟩ := exists_digits hr n
  have hlength : (Nat.toDigits radix n).length = ds.length := by rw [hds,List.length_map]
  have hpos : 0 < (Nat.toDigits radix n).length := Nat.length_toDigits_pos
  have hread : readDigits radix (Nat.toDigits radix n ++ rest) = (ds,rest) := by
    rw [hds]
    exact readDigits_map hr' hlt hrest
  have hhead : (Nat.toDigits radix n ++ rest).head? = (Nat.toDigits radix n).head? := by
    rw [List.head?_append_of_ne_nil _ (List.ne_nil_of_length_pos hpos)]
  rw [readNumber,hread,hhead]
  dsimp only
  rw [if_neg (by omega),if_neg ?_,hval,if_pos hn]
  rintro ⟨hno,hfirst,hlong⟩
  obtain hyes | hshort := hzero
  · rw [hno] at hyes
    exact Bool.noConfusion hyes
  · have hle := hshort hfirst
    omega

theorem readDigits_suffix (radix : Nat) (cs : List Char) : (readDigits radix cs).2 <:+ cs := by
  induction cs with
  | nil => exact List.suffix_rfl
  | cons c cs ih =>
    rw [readDigits]
    cases toDigit radix c with
    | none => exact List.suffix_rfl
    | some d => exact ih.trans (List.suffix_cons c cs)

theorem readNumber_suffix (h : readNumber radix maxDigits allow size cs = some (n,rest)) :
    rest <:+ cs := by
  rw [readNumber] at h
  dsimp only at h
  split at h
  · cases h
  · split at h
    · cases h
    · split at h
      · cases h
        exact readDigits_suffix radix cs
      · cases h

theorem readNumber_not_digit (h : ∀ c ∈ cs.head?, toDigit radix c = none) :
    readNumber radix maxDigits allow size cs = none := by
  have hread : readDigits radix cs = ([],cs) := by
    cases cs with
    | nil => rfl
    | cons c cs => rw [readDigits,h c rfl]
  rw [readNumber,hread]
  rfl

@[simp] theorem readChar_self (c : Char) (cs : List Char) : readChar c (c :: cs) = some cs :=
  if_pos rfl

theorem readChar_notMem {c : Char} (h : c ∉ cs) : readChar c cs = none := by
  cases cs with
  | nil => rfl
  | cons d cs =>
    rw [readChar,if_neg]
    rintro rfl
    exact h List.mem_cons_self

end Readers

section V4

variable {cs rest : List Char}

theorem toDigits_octet (x : UInt8) : (Nat.toDigits 10 x.toNat).length ≤ 3 ∧
    ((Nat.toDigits 10 x.toNat).head? = some '0' → (Nat.toDigits 10 x.toNat).length ≤ 1) := by
  have hall : ∀ n < 256, (Nat.toDigits 10 n).length ≤ 3 ∧
      ((Nat.toDigits 10 n).head? = some '0' → (Nat.toDigits 10 n).length ≤ 1) := by
    decide +kernel
  exact hall x.toNat x.toNat_lt

theorem readNumber_octet (x : UInt8) (hrest : ∀ c ∈ rest.head?, toDigit 10 c = none) :
    readNumber 10 3 false 256 (Nat.toDigits 10 x.toNat ++ rest) = some (x.toNat,rest) :=
  readNumber_toDigits (by omega) (by omega) x.toNat_lt (toDigits_octet x).1
    (.inr (toDigits_octet x).2) hrest

theorem readOctet_first (x : UInt8) (hrest : ∀ c ∈ rest.head?, toDigit 10 c = none) :
    readOctet 0 (Nat.toDigits 10 x.toNat ++ rest) = some (x,rest) := by
  rw [readOctet,readSeparator,if_neg (by omega),readNumber_octet x hrest,Option.map_some]
  exact congrArg (fun y => some (y,rest)) UInt8.ofNat_toNat

theorem readOctet_next {i : Nat} (hi : 0 < i) (x : UInt8)
    (hrest : ∀ c ∈ rest.head?, toDigit 10 c = none) :
    readOctet i ('.' :: (Nat.toDigits 10 x.toNat ++ rest)) = some (x,rest) := by
  rw [readOctet,readSeparator,if_pos hi,readChar_self,Option.bind_some,readNumber_octet x hrest,
    Option.map_some]
  exact congrArg (fun y => some (y,rest)) UInt8.ofNat_toNat

theorem readIpv4Addr_text (x : Ipv4Addr) : readIpv4Addr x.text = some (x,[]) := by
  have hdot : ∀ cs : List Char, ∀ c ∈ ('.' :: cs).head?, toDigit 10 c = none := by
    rintro cs c ⟨⟩
    decide
  have hlast : readOctet 3 ('.' :: (Nat.toDigits 10 x.d.toNat ++ [])) = some (x.d,[]) :=
    readOctet_next (by omega) x.d (by simp)
  rw [List.append_nil] at hlast
  rw [readIpv4Addr,Ipv4Addr.text,readOctet_first x.a (hdot _)]
  simp only [Option.bind_eq_bind,Option.bind_some]
  rw [readOctet_next (by omega) x.b (hdot _)]
  simp only [Option.bind_some]
  rw [readOctet_next (by omega) x.c (hdot _)]
  simp only [Option.bind_some,hlast]
  rfl

/-- Without a dot there is no IPv4 address. -/
theorem readIpv4Addr_no_dot (h : '.' ∉ cs) : readIpv4Addr cs = none := by
  rw [readIpv4Addr]
  cases ha : readOctet 0 cs with
  | none => rfl
  | some r =>
    obtain ⟨x,rest⟩ := r
    rw [readOctet,readSeparator,if_neg (by omega)] at ha
    obtain ⟨⟨n,rest'⟩,hn,heq⟩ := Option.map_eq_some_iff.1 ha
    obtain rfl : rest' = rest := (Prod.mk.inj heq).2
    have hrest : '.' ∉ rest' := fun hmem => h ((readNumber_suffix hn).subset hmem)
    have hb : readOctet 1 rest' = none := by
      rw [readOctet,readSeparator,if_pos (by omega),readChar_notMem hrest]
      rfl
    simp only [Option.bind_eq_bind,Option.bind_some,hb,Option.bind_none]

end V4

/-! ## Groups -/

/-- Further groups, each with the colon before it. -/
def moreText (xs : List UInt16) : List Char := xs.flatMap fun x => ':' :: Nat.toDigits 16 x.toNat

def groupsText : List UInt16 → List Char
  | [] => []
  | x :: xs => Nat.toDigits 16 x.toNat ++ moreText xs

theorem colon_groupsText {xs : List UInt16} (h : xs ≠ []) : ':' :: groupsText xs = moreText xs := by
  cases xs with
  | nil => exact absurd rfl h
  | cons x xs => rfl

/-- Where reading groups comes to an end. -/
def Stops (rest : List Char) : Prop := rest = [] ∨ ∃ cs, rest = ':' :: ':' :: cs

section V6

variable {i left : Nat} {xs : List UInt16} {cs rest : List Char}

theorem dot_notMem_toDigits (n : Nat) : '.' ∉ Nat.toDigits 16 n := by
  intro hmem
  have hdigit := toDigit_isSome_of_mem (by omega) le_rfl hmem
  simp [toDigit] at hdigit

theorem dot_notMem_moreText (xs : List UInt16) : '.' ∉ moreText xs := by
  rw [moreText,List.mem_flatMap]
  rintro ⟨x,-,hx⟩
  obtain hx | hx := List.mem_cons.1 hx
  · exact absurd hx (by decide)
  · exact dot_notMem_toDigits x.toNat hx

theorem readSeparator_no_dot (h : '.' ∉ cs) : readSeparator ':' i readIpv4Addr cs = none := by
  rw [readSeparator]
  by_cases hi : i > 0
  · rw [if_pos hi]
    cases cs with
    | nil => rfl
    | cons c cs =>
      rw [readChar]
      by_cases hc : c = ':'
      · rw [if_pos hc,Option.bind_some]
        exact readIpv4Addr_no_dot fun hmem => h (List.mem_cons_of_mem _ hmem)
      · rw [if_neg hc]
        rfl
  · rw [if_neg hi]
    exact readIpv4Addr_no_dot h

theorem readGroups_succ (h : '.' ∉ cs) : readGroups i (left+1) cs =
    match readGroup i cs with
    | none => ([],false,cs)
    | some (g,rest) =>
      (g :: (readGroups (i+1) left rest).1,(readGroups (i+1) left rest).2) := by
  have hnone : (if left > 0 then readSeparator ':' i readIpv4Addr cs else none) = none := by
    rw [readSeparator_no_dot h,ite_self]
  cases hg : readGroup i cs with
  | none => simp only [readGroups,hnone,hg]
  | some r => simp only [readGroups,hnone,hg]

theorem Stops.head (h : Stops rest) : ∀ c ∈ rest.head?, toDigit 16 c = none := by
  obtain rfl | ⟨cs,rfl⟩ := h
  · simp
  · rintro c ⟨⟩
    decide

theorem Stops.moreText_head (h : Stops rest) (xs : List UInt16) :
    ∀ c ∈ (moreText xs ++ rest).head?, toDigit 16 c = none := by
  cases xs with
  | nil => exact h.head
  | cons x xs =>
    rintro c ⟨⟩
    decide

theorem readGroup_stops (h : Stops rest) : readGroup i rest = none := by
  have hnumber : readSeparator ':' i (readNumber 16 4 true 65536) rest = none := by
    rw [readSeparator]
    by_cases hi : i > 0
    · rw [if_pos hi]
      obtain rfl | ⟨cs,rfl⟩ := h
      · rfl
      · rw [readChar_self,Option.bind_some]
        refine readNumber_not_digit ?_
        rintro c ⟨⟩
        decide
    · rw [if_neg hi]
      exact readNumber_not_digit h.head
  rw [readGroup,hnumber]
  rfl

theorem readNumber_group (x : UInt16) (hrest : ∀ c ∈ rest.head?, toDigit 16 c = none) :
    readNumber 16 4 true 65536 (Nat.toDigits 16 x.toNat ++ rest) = some (x.toNat,rest) :=
  readNumber_toDigits (by omega) le_rfl x.toNat_lt
    ((Nat.length_toDigits_le_iff (by omega) (by omega)).2 x.toNat_lt) (.inl rfl) hrest

theorem readGroup_first (x : UInt16) (hrest : ∀ c ∈ rest.head?, toDigit 16 c = none) :
    readGroup 0 (Nat.toDigits 16 x.toNat ++ rest) = some (x,rest) := by
  rw [readGroup,readSeparator,if_neg (by omega),readNumber_group x hrest,Option.map_some]
  exact congrArg (fun y => some (y,rest)) UInt16.ofNat_toNat

theorem readGroup_next (hi : 0 < i) (x : UInt16)
    (hrest : ∀ c ∈ rest.head?, toDigit 16 c = none) :
    readGroup i (':' :: (Nat.toDigits 16 x.toNat ++ rest)) = some (x,rest) := by
  rw [readGroup,readSeparator,if_pos hi,readChar_self,Option.bind_some,readNumber_group x hrest,
    Option.map_some]
  exact congrArg (fun y => some (y,rest)) UInt16.ofNat_toNat

theorem readGroups_stops (hdot : '.' ∉ rest) (h : Stops rest) :
    readGroups i left rest = ([],false,rest) := by
  cases left with
  | zero => rfl
  | succ left => rw [readGroups_succ hdot,readGroup_stops h]

theorem readGroups_moreText (hdot : '.' ∉ rest) (h : Stops rest) (hi : 0 < i)
    (hlen : xs.length ≤ left) : readGroups i left (moreText xs ++ rest) = (xs,false,rest) := by
  induction xs generalizing i left with
  | nil => exact readGroups_stops hdot h
  | cons x xs ih =>
    cases left with
    | zero => exact absurd hlen (by simp)
    | succ left =>
      have hno : '.' ∉ moreText (x :: xs) ++ rest := by
        rw [List.mem_append]
        exact not_or.2 ⟨dot_notMem_moreText _,hdot⟩
      have htext : moreText (x :: xs) ++ rest =
          ':' :: (Nat.toDigits 16 x.toNat ++ (moreText xs ++ rest)) := by
        simp [moreText]
      rw [readGroups_succ hno,htext,readGroup_next hi x (h.moreText_head xs)]
      dsimp only
      rw [ih (Nat.succ_pos i) (Nat.le_of_succ_le_succ hlen)]

/-- Groups are read until they stop or there are enough. -/
theorem readGroups_text (hdot : '.' ∉ rest) (h : Stops rest) (hlen : xs.length ≤ left) :
    readGroups 0 left (groupsText xs ++ rest) = (xs,false,rest) := by
  cases xs with
  | nil => exact readGroups_stops hdot h
  | cons x xs =>
    cases left with
    | zero => exact absurd hlen (by simp)
    | succ left =>
      have hno : '.' ∉ groupsText (x :: xs) ++ rest := by
        rw [groupsText,List.mem_append,List.mem_append]
        exact not_or.2 ⟨not_or.2 ⟨dot_notMem_toDigits _,dot_notMem_moreText _⟩,hdot⟩
      rw [readGroups_succ hno,groupsText,List.append_assoc,
        readGroup_first x (h.moreText_head xs)]
      dsimp only
      rw [readGroups_moreText hdot h Nat.one_pos (Nat.le_of_succ_le_succ hlen)]

end V6

/-! ## What is printed -/

namespace Ipv6Addr

variable {start : Option Nat} {i : Nat} {x : UInt16} {xs seen : List UInt16}

/-- The run that is left out begins with a zero. -/
theorem compress_zero {longestIndex foundIndex : Option Nat} {longestSize foundSize k : Nat}
    (hi : i = seen.length) (hlongest : ∀ k ∈ longestIndex, (seen++xs)[k]? = some 0)
    (hfound : ∀ k ∈ foundIndex, (seen++xs)[k]? = some 0)
    (h : compress i longestIndex longestSize foundIndex foundSize xs = some k) :
    (seen++xs)[k]? = some 0 := by
  induction xs generalizing i seen longestIndex foundIndex longestSize foundSize with
  | nil =>
    rw [compress] at h
    by_cases hsize : foundSize > longestSize
    · rw [if_pos hsize] at h
      exact hfound k h
    · rw [if_neg hsize] at h
      exact hlongest k h
  | cons x xs ih =>
    have hmove : seen ++ x :: xs = seen++[x] ++ xs := by simp
    have hnext : i+1 = (seen++[x]).length := by simp [hi]
    rw [hmove] at hlongest hfound ⊢
    rw [compress] at h
    by_cases hx : x = 0
    · rw [if_pos hx] at h
      refine ih hnext hlongest (fun j hj => ?_) h
      obtain rfl := Option.some.inj hj
      cases foundIndex with
      | some f => exact hfound f rfl
      | none =>
        rw [Option.getD_none,hi,List.append_assoc,List.getElem?_append_right le_rfl,hx]
        simp
    · rw [if_neg hx] at h
      by_cases hsize : foundSize > longestSize
      · rw [if_pos hsize] at h
        exact ih hnext hfound (by simp) h
      · rw [if_neg hsize] at h
        exact ih hnext hlongest (by simp) h

theorem textFrom_piece (hs : start ≠ some i) (ignore0 : Bool) (hx : (ignore0 && x = 0) = false) :
    textFrom start i ignore0 (x :: xs) = Nat.toDigits 16 x.toNat ++
      ((if i = 7 then [] else [':']) ++ textFrom start (i+1) false xs) := by
  rw [textFrom,if_neg (by simp [hx]),if_neg hs]

/-- Past the run that is left out, or without one. -/
theorem textFrom_after (hs : ∀ k ∈ start, k < i) (hlen : i+xs.length = 8) :
    textFrom start i false xs = groupsText xs := by
  induction xs generalizing i with
  | nil => rfl
  | cons x xs ih =>
    have hne : start ≠ some i := fun h => Nat.lt_irrefl i (hs i h)
    rw [List.length_cons] at hlen
    rw [textFrom_piece hne false rfl,groupsText,
      ih (fun k hk => Nat.lt_succ_of_lt (hs k hk)) (by omega)]
    cases xs with
    | nil =>
      rw [if_pos (by simpa using hlen)]
      rfl
    | cons y ys =>
      rw [List.length_cons] at hlen
      rw [if_neg (by omega),← colon_groupsText (List.cons_ne_nil y ys)]
      rfl

/-- Inside the run zeros are left out. -/
theorem textFrom_run (hs : ∀ k ∈ start, k < i) (hlen : i+xs.length = 8) :
    textFrom start i true xs = groupsText (xs.dropWhile (· = 0)) := by
  induction xs generalizing i with
  | nil => rfl
  | cons x xs ih =>
    rw [List.length_cons] at hlen
    by_cases hx : x = 0
    · rw [textFrom,if_pos (by simp [hx]),ih (fun k hk => Nat.lt_succ_of_lt (hs k hk)) (by omega),
        List.dropWhile_cons_of_pos (by simpa using hx)]
    · have hne : start ≠ some i := fun h => Nat.lt_irrefl i (hs i h)
      rw [List.dropWhile_cons_of_neg (by simpa using hx),← textFrom_after hs (by simpa using hlen),
        textFrom_piece hne true (by simp [hx]),textFrom_piece hne false rfl]

/-- After the first piece, up to the run. -/
theorem colon_textFrom (hs : start = some (i+xs.length)) (hi : 0 < i) {ys : List UInt16}
    (hlen : i+xs.length+1+ys.length = 8) :
    ':' :: textFrom start i false (xs ++ 0 :: ys) =
      moreText xs ++ ':' :: ':' :: groupsText (ys.dropWhile (· = 0)) := by
  induction xs generalizing i with
  | nil =>
    have hrun : textFrom start (i+1) true ys = groupsText (ys.dropWhile (· = 0)) :=
      textFrom_run (by rw [hs]; rintro k ⟨⟩; simp) (by simpa using hlen)
    rw [List.nil_append,textFrom,if_neg (by simp),if_pos (by simpa using hs),if_neg (by omega),hrun]
    rfl
  | cons x xs ih =>
    rw [List.length_cons] at hs hlen
    have hne : start ≠ some i := by
      rw [hs,ne_eq,Option.some.injEq]
      omega
    have hrest := ih (i := i+1) (by rw [hs]; congr 1; omega) (by omega) (by omega)
    rw [List.cons_append,textFrom_piece hne false rfl,if_neg (by omega),List.singleton_append,hrest]
    simp [moreText]

theorem textFrom_before {ys : List UInt16} (hs : start = some xs.length)
    (hlen : xs.length+1+ys.length = 8) :
    textFrom start 0 false (xs ++ 0 :: ys) =
      groupsText xs ++ ':' :: ':' :: groupsText (ys.dropWhile (· = 0)) := by
  cases xs with
  | nil =>
    have hrun : textFrom start 1 true ys = groupsText (ys.dropWhile (· = 0)) :=
      textFrom_run (by rw [hs]; rintro k ⟨⟩; simp) (by simpa [Nat.add_comm] using hlen)
    rw [List.length_nil] at hs
    rw [List.nil_append,textFrom,if_neg (by simp),if_pos hs,if_pos rfl,hrun]
    rfl
  | cons x xs =>
    rw [List.length_cons] at hs hlen
    have hne : start ≠ some 0 := by simp [hs]
    have hrest : ':' :: textFrom start 1 false (xs ++ 0 :: ys) =
        moreText xs ++ ':' :: ':' :: groupsText (ys.dropWhile (· = 0)) :=
      colon_textFrom (by rw [hs,Nat.add_comm]) Nat.one_pos (by omega)
    rw [List.cons_append,textFrom_piece hne false rfl,if_neg (by omega),List.singleton_append,hrest,
      groupsText,List.append_assoc]

/-- What is printed: all groups, or those before and after a run of zeros. -/
theorem text_cases (x : Ipv6Addr) : x.text = groupsText x.segments ∨
    ∃ xs ys : List UInt16, x.segments = xs ++ 0 :: ys ∧
      x.text = groupsText xs ++ ':' :: ':' :: groupsText (ys.dropWhile (· = 0)) := by
  have hlen := x.length_segments
  rw [text]
  cases hstart : compress 0 none 1 none 0 x.segments with
  | none => exact .inl (textFrom_after (by simp) (by omega))
  | some k =>
    right
    have hzero : ([]++x.segments)[k]? = some 0 := compress_zero rfl (by simp) (by simp) hstart
    rw [List.nil_append] at hzero
    obtain ⟨hk,hget⟩ := List.getElem?_eq_some_iff.1 hzero
    have hsplit : x.segments = x.segments.take k ++ 0 :: x.segments.drop (k+1) := by
      rw [← hget,List.cons_getElem_drop_succ,List.take_append_drop]
    have htake : (x.segments.take k).length = k := by
      rw [List.length_take]
      omega
    refine ⟨x.segments.take k,x.segments.drop (k+1),hsplit,?_⟩
    have htext : textFrom (some k) 0 false (x.segments.take k ++ 0 :: x.segments.drop (k+1)) = _ :=
      textFrom_before (by rw [htake]) (by rw [htake,List.length_drop]; omega)
    rwa [← hsplit] at htext

end Ipv6Addr

theorem dot_notMem_groupsText (xs : List UInt16) : '.' ∉ groupsText xs := by
  cases xs with
  | nil => exact List.not_mem_nil
  | cons x xs =>
    rw [groupsText,List.mem_append]
    exact not_or.2 ⟨dot_notMem_toDigits _,dot_notMem_moreText _⟩

/-- Zeros that were left out are put back. -/
theorem joinGroups_dropWhile (xs ys : List UInt16) (hlen : (xs ++ 0 :: ys).length = 8)
    (h : xs.length+(ys.dropWhile (· = 0)).length ≤ 8) :
    (joinGroups xs (ys.dropWhile (· = 0)) h).segments = xs ++ 0 :: ys := by
  have hzeros : ∀ y ∈ ys.takeWhile (· = 0), y = 0 := fun y hy => by
    simpa using List.mem_takeWhile_imp hy
  have htake := List.eq_replicate_of_mem hzeros
  have hys := List.takeWhile_append_dropWhile (p := fun y : UInt16 => y = 0) (l := ys)
  have hsum := congrArg List.length hys
  rw [List.length_append] at hsum
  rw [List.length_append,List.length_cons] at hlen
  have hcount : 8-(xs.length+(ys.dropWhile (· = 0)).length) = (ys.takeWhile (· = 0)).length+1 := by
    omega
  show xs ++ List.replicate (8-(xs.length+(ys.dropWhile (· = 0)).length)) 0 ++
    ys.dropWhile (· = 0) = _
  rw [hcount,List.replicate_succ,← htake,List.append_assoc,List.cons_append,hys]

theorem readIpv6Addr_join {cs cs' rest : List Char} {xs ys : List UInt16} {v4 : Bool}
    (hhead : readGroups 0 8 cs = (xs,false,':' :: ':' :: cs')) (hxs : xs.length ≠ 8)
    (htail : readGroups 0 (7-xs.length) cs' = (ys,v4,rest)) (h : xs.length+ys.length ≤ 8) :
    readIpv6Addr cs = some (joinGroups xs ys h,rest) := by
  rw [readIpv6Addr]
  simp [hhead,hxs,htail]

theorem readIpv6Addr_text (x : Ipv6Addr) : readIpv6Addr x.text = some (x,[]) := by
  have hlen := x.length_segments
  obtain htext | ⟨xs,ys,hsplit,htext⟩ := x.text_cases
  · have hhead : readGroups 0 8 x.text = (x.segments,false,[]) := by
      rw [htext,← List.append_nil (groupsText x.segments)]
      exact readGroups_text (by simp) (.inl rfl) hlen.le
    rw [readIpv6Addr]
    simp only [hhead,hlen,dite_true]
  · rw [hsplit,List.length_append,List.length_cons] at hlen
    have hdrop : (ys.dropWhile (· = 0)).length ≤ ys.length :=
      (List.dropWhile_sublist _).length_le
    have hno : '.' ∉ ':' :: ':' :: groupsText (ys.dropWhile (· = 0)) := by
      simp [dot_notMem_groupsText]
    have hhead : readGroups 0 8 x.text =
        (xs,false,':' :: ':' :: groupsText (ys.dropWhile (· = 0))) := by
      rw [htext]
      exact readGroups_text hno (.inr ⟨_,rfl⟩) (by omega)
    have htail : readGroups 0 (7-xs.length) (groupsText (ys.dropWhile (· = 0))) =
        (ys.dropWhile (· = 0),false,[]) := by
      rw [← List.append_nil (groupsText (ys.dropWhile (· = 0)))]
      exact readGroups_text (by simp) (.inl rfl) (by omega)
    rw [readIpv6Addr_join hhead (by omega) htail (by omega),Option.some.injEq,Prod.mk.injEq]
    refine ⟨?_,rfl⟩
    have hsegments := joinGroups_dropWhile xs ys
      (by rw [List.length_append,List.length_cons]; exact hlen) (by omega)
    cases x with
    | mk segments hlength =>
      rw [Ipv6Addr.mk.injEq]
      exact hsegments.trans hsplit.symm

/-- An address is read back from what a URL prints. -/
theorem parseIpAddr_text (ip : IpAddr) : parseIpAddr ip.text = some ip := by
  cases ip with
  | v4 x =>
    rw [parseIpAddr,IpAddr.text,readIpv4Addr_text]
    rfl
  | v6 x =>
    have hdot : '.' ∉ x.text := by
      obtain htext | ⟨xs,ys,-,htext⟩ := x.text_cases
      · rw [htext]
        exact dot_notMem_groupsText _
      · simp [htext,dot_notMem_groupsText]
    rw [parseIpAddr,IpAddr.text,readIpv4Addr_no_dot hdot,readIpv6Addr_text]
    rfl

/-! ## The characters of an address -/

def addressChars : List Char :=
  ['0','1','2','3','4','5','6','7','8','9','a','b','c','d','e','f','.',':']

section Chars

variable {c : Char}

theorem digitChar_mem {d : Nat} (h : d < 16) : Nat.digitChar d ∈ addressChars := by
  interval_cases d <;> decide

theorem toDigits_subset {b n : Nat} (hb : 1 < b) (hb' : b ≤ 16) (hc : c ∈ Nat.toDigits b n) :
    c ∈ addressChars := by
  obtain ⟨ds,hds,hlt,-⟩ := exists_digits hb n
  rw [hds] at hc
  obtain ⟨d,hd,rfl⟩ := List.mem_map.1 hc
  exact digitChar_mem ((hlt d hd).trans_le hb')

theorem groupsText_subset {xs : List UInt16} (hc : c ∈ groupsText xs) : c ∈ addressChars := by
  cases xs with
  | nil => exact absurd hc List.not_mem_nil
  | cons x xs =>
    rw [groupsText] at hc
    obtain hc | hc := List.mem_append.1 hc
    · exact toDigits_subset (by omega) le_rfl hc
    · obtain ⟨y,-,hy⟩ := List.mem_flatMap.1 hc
      obtain rfl | hy := List.mem_cons.1 hy
      · decide
      · exact toDigits_subset (by omega) le_rfl hy

theorem text_subset {ip : IpAddr} (hc : c ∈ ip.text) : c ∈ addressChars := by
  have hdot : '.' ∈ addressChars := by decide
  have hcolon : ':' ∈ addressChars := by decide
  cases ip with
  | v4 x =>
    simp only [IpAddr.text,Ipv4Addr.text,List.mem_append,List.mem_cons] at hc
    obtain hc | rfl | hc | rfl | hc | rfl | hc := hc
    · exact toDigits_subset (by omega) (by omega) hc
    · exact hdot
    · exact toDigits_subset (by omega) (by omega) hc
    · exact hdot
    · exact toDigits_subset (by omega) (by omega) hc
    · exact hdot
    · exact toDigits_subset (by omega) (by omega) hc
  | v6 x =>
    rw [IpAddr.text] at hc
    obtain htext | ⟨xs,ys,-,htext⟩ := x.text_cases
    · rw [htext] at hc
      exact groupsText_subset hc
    · simp only [htext,List.mem_append,List.mem_cons] at hc
      obtain hc | rfl | rfl | hc := hc
      · exact groupsText_subset hc
      · exact hcolon
      · exact hcolon
      · exact groupsText_subset hc

end Chars

end Net
