import GumEngine.Text.Numerals

/-!
# Lower case and searching

`str::to_lowercase` over the case data of Unicode, and `str::contains`. A text is searched for a
word regardless of what stands before it, where the two cannot overlap.
-/

namespace Text

/-- The properties of characters that lower-casing reads. -/
structure CaseData where
  toLower : Char → List Char
  cased : Char → Bool
  caseIgnorable : Char → Bool
  toLower_ascii : ∀ c : Char, c.toNat < 128 → toLower c = [c.toLower]
  cased_space : cased ' ' = false
  caseIgnorable_space : caseIgnorable ' ' = false

namespace CaseData

/-- Only the characters below 128 have a case. -/
def ascii : CaseData where
  toLower c := [c.toLower]
  cased := Char.isAlpha
  caseIgnorable c := c.toNat ∈ [39,46,58,94,96]
  toLower_ascii _ _ := rfl
  cased_space := by decide
  caseIgnorable_space := by decide

variable (u : CaseData)

def caseIgnorableThenCased (cs : List Char) : Bool :=
  (cs.dropWhile u.caseIgnorable).head?.any u.cased

/-- A capital sigma has another form at the end of a word. -/
def mapUppercaseSigma (before after : List Char) : Char :=
  if u.caseIgnorableThenCased before && !u.caseIgnorableThenCased after then 'ς' else 'σ'

/-- `before` are the characters already read, the last one first. -/
def lowerFrom : (before rest : List Char) → List Char
  | _,[] => []
  | before,c :: cs =>
    (if c = 'Σ' then [u.mapUppercaseSigma before cs] else u.toLower c) ++ lowerFrom (c :: before) cs

def toLowercase (s : String) : String := .ofList (u.lowerFrom [] s.toList)

end CaseData

def contains (haystack needle : String) : Bool := needle.toList <:+: haystack.toList

def containsAny (haystack : String) (needles : List String) : Bool :=
  needles.any fun n => contains haystack n

section Lowercase

variable {u : CaseData} {before before' cs ds : List Char} {s : String}

theorem lowerFrom_ascii (h : ∀ c ∈ cs, c.toNat < 128) :
    u.lowerFrom before (cs++ds) = cs.map Char.toLower ++ u.lowerFrom (cs.reverse++before) ds := by
  induction cs generalizing before with
  | nil => rfl
  | cons c cs ih =>
    have hc := h c List.mem_cons_self
    have hsigma : c ≠ 'Σ' := by
      rintro rfl
      exact absurd hc (by decide)
    rw [List.cons_append,CaseData.lowerFrom,if_neg hsigma,u.toLower_ascii c hc,
      ih fun c hc => h c (List.mem_cons_of_mem _ hc),List.map_cons,List.reverse_cons,
      List.append_assoc]
    rfl

/-- A text of small letters is kept. -/
theorem toLowercase_self (h : ∀ c ∈ s.toList, c.toNat < 128 ∧ c.toLower = c) :
    u.toLowercase s = s := by
  have hlower : u.lowerFrom [] (s.toList++[]) = _ := lowerFrom_ascii fun c hc => (h c hc).1
  rw [List.append_nil,List.map_congr_left fun c hc => (h c hc).2,List.map_id'] at hlower
  rw [CaseData.toLowercase,hlower,CaseData.lowerFrom,List.append_nil,String.ofList_toList]

/-- What stands before a space has no part in the form of a sigma. -/
theorem caseIgnorableThenCased_space :
    u.caseIgnorableThenCased (cs ++ ' ' :: before) = u.caseIgnorableThenCased cs := by
  induction cs with
  | nil =>
    show ((' ' :: before).dropWhile u.caseIgnorable).head?.any u.cased = false
    rw [List.dropWhile_cons_of_neg (by simp [u.caseIgnorable_space])]
    exact u.cased_space
  | cons c cs ih =>
    rw [CaseData.caseIgnorableThenCased] at ih ⊢
    by_cases hc : u.caseIgnorable c
    · rw [List.cons_append,List.dropWhile_cons_of_pos hc,ih,CaseData.caseIgnorableThenCased,
        CaseData.caseIgnorableThenCased,List.dropWhile_cons_of_pos hc]
    · rw [List.cons_append,List.dropWhile_cons_of_neg hc,CaseData.caseIgnorableThenCased,
        List.dropWhile_cons_of_neg hc]
      rfl

theorem lowerFrom_space (cs : List Char) :
    u.lowerFrom (cs ++ ' ' :: before) ds = u.lowerFrom cs ds := by
  induction ds generalizing cs with
  | nil => rfl
  | cons d ds ih =>
    rw [CaseData.lowerFrom,CaseData.lowerFrom,← List.cons_append,ih,CaseData.mapUppercaseSigma,
      CaseData.mapUppercaseSigma,caseIgnorableThenCased_space]

/-- A text of small letters and a space are kept in front. -/
theorem toLowercase_append {text : String} (h : ∀ c ∈ text.toList, c.toNat < 128 ∧ c.toLower = c) :
    u.toLowercase (text ++ " " ++ s) = text ++ " " ++ u.toLowercase s := by
  have hfront : (text ++ " ").toList = text.toList ++ [' '] := String.toList_append
  have hlower : (text ++ " ").toList.map Char.toLower = (text ++ " ").toList := by
    rw [hfront,List.map_append,List.map_congr_left fun c hc => (h c hc).2,List.map_id']
    rfl
  have hascii : ∀ c ∈ (text ++ " ").toList, c.toNat < 128 := by
    intro c hc
    rw [hfront] at hc
    obtain hc | hc := List.mem_append.1 hc
    · exact (h c hc).1
    · rw [List.mem_singleton.1 hc]
      decide
  have hspace : u.lowerFrom ((text ++ " ").toList.reverse ++ []) s.toList =
      u.lowerFrom [] s.toList := by
    rw [hfront,List.reverse_append,List.append_nil]
    exact lowerFrom_space []
  apply String.toList_injective
  calc (u.toLowercase (text ++ " " ++ s)).toList
      = u.lowerFrom [] ((text ++ " ").toList ++ s.toList) := by
        rw [CaseData.toLowercase,String.toList_ofList,String.toList_append]
    _ = (text ++ " ").toList ++ u.lowerFrom [] s.toList := by
        rw [lowerFrom_ascii hascii,hlower,hspace]
    _ = (text ++ " " ++ u.toLowercase s).toList := by
        simp [CaseData.toLowercase]

end Lowercase

section Search

variable {α : Type} {p n xs : List α}

/-- Where no part of what stands in front can begin the word, it is not in there. -/
theorem infix_append_iff (h : ∀ t ∈ p.tails, t ≠ [] → ¬t <+: n ∧ ¬n <+: t) :
    n <:+: p++xs ↔ n <:+: xs := by
  induction p with
  | nil => rfl
  | cons c p ih =>
    have htail := ih fun t ht => h t (by rw [List.tails]; exact List.mem_cons_of_mem _ ht)
    rw [List.cons_append,List.infix_cons_iff,htail]
    refine or_iff_right fun hn => ?_
    obtain ⟨hshort,hlong⟩ := h (c :: p) (by rw [List.tails]; exact List.mem_cons_self) (by simp)
    obtain hfits | hfits := List.prefix_or_prefix_of_prefix hn (List.prefix_append (c :: p) xs)
    · exact hlong hfits
    · exact hshort hfits

end Search

end Text
