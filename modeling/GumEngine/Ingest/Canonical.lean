import GumEngine.Ingest.Batch
import GumEngine.Text.Numerals

/-!
# The canonical form of a request

The text by which `submit` of `api.rs` hashes a request, and what a later submission under the same
idempotency key is answered. How an instant is printed and the hash function are parameters.
-/

namespace GumEngine
open Text

/-- `{:#x}` of an address. -/
def addrHex (a : Address) : String := "0x" ++ String.ofList ((Nat.toDigits 16 a).leftpad 40 '0')

/-- `{:?}` of an optional field. -/
def debugOption {α : Type} (debug : α → String) : Option α → String
  | none => "None"
  | some a => s!"Some({debug a})"

namespace JobRequest

def canonical (debug : Nat → String) (r : JobRequest) : String :=
  s!"{r.chainId}|{addrHex r.toAddr}|0x{hexEncode r.data}|{r.value}|" ++
    s!"{debugOption toString r.gasLimit}|{debugOption debug r.deadline}|{r.webhookUrl}"

def requestHash (debug : Nat → String) (sha256 : ByteArray → Bytes) (r : JobRequest) : String :=
  hexEncode (sha256 (r.canonical debug).toByteArray)

/-- What `submit` hands to the batcher. -/
def newJob (debug : Nat → String) (sha256 : ByteArray → Bytes) (id : JobId)
    (idempotencyKey : Option String) (request : JobRequest) : NewJob :=
  ⟨id,request,idempotencyKey,request.requestHash debug sha256⟩

end JobRequest

/-! ## The fields are kept apart -/

section Fields

variable {α : Type} {debug : α → String}

theorem bar_notMem_toDigits {b : Nat} (hb : 1 < b) (hb' : b ≤ 16) (n : Nat) :
    '|' ∉ Nat.toDigits b n := by
  intro hmem
  have hdigit := toDigit_isSome_of_mem hb hb' hmem
  simp [toDigit] at hdigit

theorem bar_notMem_toString (n : Nat) : '|' ∉ (toString n).toList := by
  rw [Nat.toString_eq_repr,Nat.toList_repr]
  exact bar_notMem_toDigits (by omega) (by omega) n

theorem bar_notMem_addrHex (a : Address) : '|' ∉ (addrHex a).toList := by
  rw [addrHex,String.toList_append,String.toList_ofList,List.leftpad]
  have hdigits := bar_notMem_toDigits (b := 16) (by omega) le_rfl a
  simp [hdigits,List.mem_replicate]

theorem bar_notMem_hexEncode (bytes : Bytes) : '|' ∉ (hexEncode bytes).toList := by
  intro hmem
  have hdigit := toDigit_isSome_of_mem_hexEncode hmem
  simp [toDigit] at hdigit

theorem toList_debugOption_some (a : α) :
    (debugOption debug (some a)).toList = "Some(".toList ++ ((debug a).toList ++ ")".toList) := by
  show ("Some(" ++ debug a ++ ")").toList = _
  rw [String.toList_append,String.toList_append,List.append_assoc]

theorem bar_notMem_debugOption (hbar : ∀ a, '|' ∉ (debug a).toList) (o : Option α) :
    '|' ∉ (debugOption debug o).toList := by
  cases o with
  | none => simp [debugOption]
  | some a => simp [toList_debugOption_some,hbar a]

theorem toString_injective : Function.Injective (toString : Nat → String) := by
  intro m n h
  rw [Nat.toString_eq_repr,Nat.toString_eq_repr,← String.toList_inj,Nat.toList_repr,
    Nat.toList_repr] at h
  exact (toDigits_inj (by omega) (by omega)).1 h

theorem addrHex_injective : Function.Injective addrHex := by
  intro a b h
  rw [addrHex,addrHex,← String.toList_inj] at h
  simp only [String.toList_append,String.toList_ofList,List.append_cancel_left_eq] at h
  exact (leftpad_toDigits_inj (by omega) le_rfl).1 h

theorem debugOption_injective (hdebug : Function.Injective debug) :
    Function.Injective (debugOption debug) := by
  intro o o' h
  rw [← String.toList_inj] at h
  cases o with
  | none =>
    cases o' with
    | none => rfl
    | some b =>
      rw [toList_debugOption_some,debugOption] at h
      simp at h
  | some a =>
    cases o' with
    | none =>
      rw [toList_debugOption_some,debugOption] at h
      simp at h
    | some b =>
      simp only [toList_debugOption_some,List.append_cancel_left_eq,List.append_cancel_right_eq,
        String.toList_inj] at h
      rw [hdebug h]

end Fields

section Canonical

variable {debug : Nat → String} {sha256 : ByteArray → Bytes}

theorem JobRequest.toList_canonical (r : JobRequest) : (r.canonical debug).toList =
    (toString r.chainId).toList ++ '|' :: ((addrHex r.toAddr).toList ++ '|' ::
      ('0' :: 'x' :: (hexEncode r.data).toList ++ '|' :: ((toString r.value).toList ++ '|' ::
        ((debugOption toString r.gasLimit).toList ++ '|' ::
          ((debugOption debug r.deadline).toList ++ '|' :: r.webhookUrl.toList))))) := by
  simp [JobRequest.canonical,toString]

/-- The webhook's URL comes last: it may hold the separator itself. -/
theorem JobRequest.canonical_injective (hdebug : Function.Injective debug)
    (hbar : ∀ i, '|' ∉ (debug i).toList) : Function.Injective (canonical debug) := by
  intro r s h
  rw [← String.toList_inj,toList_canonical,toList_canonical] at h
  have hhex : ∀ bytes : Bytes, '|' ∉ '0' :: 'x' :: (hexEncode bytes).toList := fun bytes => by
    simp [bar_notMem_hexEncode bytes]
  obtain ⟨hchain,h⟩ :=
    append_sep_inj (bar_notMem_toString r.chainId) (bar_notMem_toString s.chainId) h
  obtain ⟨hto,h⟩ := append_sep_inj (bar_notMem_addrHex r.toAddr) (bar_notMem_addrHex s.toAddr) h
  obtain ⟨hdata,h⟩ := append_sep_inj (hhex r.data) (hhex s.data) h
  obtain ⟨hvalue,h⟩ := append_sep_inj (bar_notMem_toString r.value) (bar_notMem_toString s.value) h
  obtain ⟨hgas,h⟩ := append_sep_inj (bar_notMem_debugOption bar_notMem_toString r.gasLimit)
    (bar_notMem_debugOption bar_notMem_toString s.gasLimit) h
  obtain ⟨hdeadline,hurl⟩ := append_sep_inj (bar_notMem_debugOption hbar r.deadline)
    (bar_notMem_debugOption hbar s.deadline) h
  rw [String.toList_inj] at hchain hto hvalue hgas hdeadline hurl
  have hdata' : hexEncode r.data = hexEncode s.data :=
    String.toList_inj.1 (List.cons.inj (List.cons.inj hdata).2).2
  cases r with
  | mk chainId toAddr data value gasLimit deadline webhookUrl =>
    cases s with
    | mk chainId' toAddr' data' value' gasLimit' deadline' webhookUrl' =>
      rw [JobRequest.mk.injEq]
      exact ⟨toString_injective hchain,addrHex_injective hto,hexEncode_injective hdata',
        toString_injective hvalue,debugOption_injective toString_injective hgas,
        debugOption_injective hdebug hdeadline,hurl⟩

theorem JobRequest.requestHash_inj (hdebug : Function.Injective debug)
    (hbar : ∀ i, '|' ∉ (debug i).toList) {r s : JobRequest}
    (hsha : sha256 (r.canonical debug).toByteArray = sha256 (s.canonical debug).toByteArray →
      (r.canonical debug).toByteArray = (s.canonical debug).toByteArray) :
    r.requestHash debug sha256 = s.requestHash debug sha256 ↔ r = s := by
  refine ⟨fun h => ?_,fun h => by rw [h]⟩
  have hbytes := hsha (hexEncode_injective h)
  exact canonical_injective hdebug hbar (String.toByteArray_inj.1 hbytes)

end Canonical

/-! ## What a later submission is answered -/

section Submissions

variable {α : Type} {t : Jobs} {j : NewJob} {key : String}

/-- What the caller of one job is told. -/
theorem batcher_getElem {batches : List (List (NewJob × α))} {before after : List (NewJob × α)}
    {caller : α} (hf : t.Fresh (batches.flatten.map (·.1)))
    (hb : batches.flatten = before ++ (j,caller) :: after) :
    (batcher t batches).1[before.length]? =
      some (caller,.ok ((t.addAll (before.map (·.1))).answer j)) := by
  have hlen : (t.answers (before.map (·.1))).length = before.length := by
    rw [Jobs.length_answers,List.length_map]
  rw [batcher_eq batches hf,hb]
  simp only [List.map_append,List.map_cons,Jobs.answers_append,Jobs.answers]
  rw [List.zip_append (by rw [List.length_map,List.length_map,hlen]),
    List.getElem?_append_right (by simp [hlen])]
  simp [hlen]

/-- A job that is created owns its key. -/
theorem Jobs.ownerOf_add (hf : ∀ r ∈ t.table.rows, r.job.id ≠ j.id) (hh : t.answer j = .created)
    (hk : j.idempotencyKey = some key) : (t.add j).ownerOf key = some (.ofNew t.nextSeq j) := by
  have hnone : t.holder j = none := by
    cases hrow : t.holder j with
    | none => rfl
    | some row =>
      rw [Jobs.answer,hrow] at hh
      by_cases hhash : row.requestHash = j.requestHash <;> simp [hhash] at hh
  obtain ⟨table,hi,hrows⟩ := Jobs.insert_some hnone hf
  have hold : t.ownerOf key = none := by
    rw [← hnone,Jobs.holder,hk,Option.bind_some]
  rw [Jobs.ownerOf] at hold
  rw [Jobs.add,hnone,hi,Option.getD_some,Jobs.ownerOf,hrows,List.find?_append,hold]
  simp [IngestRow.ofNew,hk]

theorem Jobs.answer_of_owner {row : IngestRow} (h : t.ownerOf key = some row)
    (hk : j.idempotencyKey = some key) :
    t.answer j = if row.requestHash = j.requestHash then .replayed row.job.id else .conflict := by
  rw [Jobs.answer,Jobs.holder,hk,Option.bind_some,h]

theorem Jobs.addAll_append_cons (js ks : List NewJob) :
    t.addAll (js ++ j :: ks) = ((t.addAll js).add j).addAll ks := by
  rw [Jobs.addAll,List.foldl_append,List.foldl_cons]
  rfl

end Submissions

/-- Two requests have the same canonical form only if they are the same; and once a job is created
under a key, a submission under that key, in the same batch or a later one, is a replay of it if it
asks for the same and a conflict if it does not. -/
theorem replay_follows_request {debug : Nat → String} (hdebug : Function.Injective debug)
    (hbar : ∀ i, '|' ∉ (debug i).toList) :
    (∀ r s : JobRequest, r.canonical debug = s.canonical debug ↔ r = s) ∧
      ∀ (sha256 : ByteArray → Bytes) (α : Type) (t : Jobs) (batches : List (List (NewJob × α)))
        (before between after : List (NewJob × α)) (r s : JobRequest) (id id' : JobId)
        (key : String) (caller caller' : α),
        (sha256 (r.canonical debug).toByteArray = sha256 (s.canonical debug).toByteArray →
          (r.canonical debug).toByteArray = (s.canonical debug).toByteArray) →
        t.Fresh (batches.flatten.map (·.1)) →
        batches.flatten = before ++ (r.newJob debug sha256 id (some key),caller) :: between ++
          (s.newJob debug sha256 id' (some key),caller') :: after →
        (batcher t batches).1[before.length]? = some (caller,.ok .created) →
        ∃ o, (batcher t batches).1[before.length+1+between.length]? = some (caller',.ok o) ∧
          (o = .replayed id ↔ r = s) ∧ (o = .conflict ↔ r ≠ s) := by
  refine ⟨fun r s => (JobRequest.canonical_injective hdebug hbar).eq_iff,?_⟩
  intro sha256 α t batches before between after r s id id' key caller caller' hsha hf hb hfirst
  have hb' : batches.flatten = before ++ (r.newJob debug sha256 id (some key),caller) ::
      (between ++ (s.newJob debug sha256 id' (some key),caller') :: after) := by
    rw [hb,List.append_assoc,List.cons_append]
  rw [batcher_getElem hf hb',Option.some.injEq,Prod.mk.injEq,Except.ok.injEq] at hfirst
  have hsecond := batcher_getElem hf hb
  rw [List.length_append,List.length_cons,← Nat.add_assoc,Nat.add_right_comm] at hsecond
  refine ⟨_,hsecond,?_⟩
  -- the first job owns the key from its turn on
  rw [hb',List.map_append,List.map_cons] at hf
  have hnew := hf.right
  have hown := Jobs.ownerOf_add (hnew.new _ List.mem_cons_self) hfirst.2 rfl
  rw [List.map_append] at hnew
  have hlast := Jobs.ownerOf_addAll hnew.tail.left hown
  have hhash := JobRequest.requestHash_inj hdebug hbar hsha
  rw [List.map_append,List.map_cons,Jobs.addAll_append_cons,Jobs.answer_of_owner hlast rfl]
  show ((if r.requestHash debug sha256 = s.requestHash debug sha256 then
      InsertOutcome.replayed id else .conflict) = .replayed id ↔ r = s) ∧
    ((if r.requestHash debug sha256 = s.requestHash debug sha256 then
      InsertOutcome.replayed id else .conflict) = .conflict ↔ r ≠ s)
  by_cases hrs : r = s
  · rw [if_pos (hhash.2 hrs)]
    exact ⟨⟨fun _ => hrs,fun _ => rfl⟩,by simp [hrs]⟩
  · rw [if_neg (mt hhash.1 hrs)]
    exact ⟨by simp [hrs],⟨fun _ => hrs,fun _ => rfl⟩⟩

namespace Sample

/-- Instants of the first few milliseconds. -/
def instant (ms : Nat) : String := s!"1970-01-01T00:00:00.00{ms}Z"

def plainRequest : JobRequest := ⟨1,7,[],5,none,none,"https://hook/|x"⟩

def timedRequest : JobRequest := ⟨1,7,[255],5,some 21000,some 5,"https://hook/|x"⟩

def plainText : String :=
  "1|0x0000000000000000000000000000000000000007|0x|5|None|None|https://hook/|x"

def timedText : String :=
  "1|0x0000000000000000000000000000000000000007|0xff|5|Some(21000)|" ++
    "Some(1970-01-01T00:00:00.005Z)|https://hook/|x"

/-- SHA-256 on the two texts. -/
def digest (bytes : ByteArray) : Bytes :=
  if bytes = plainText.toByteArray then
    [94,239,68,56,117,195,45,28,162,132,40,92,192,135,83,186,
      59,18,253,73,112,242,239,148,19,244,97,27,14,102,6,251]
  else if bytes = timedText.toByteArray then
    [246,156,114,110,140,112,43,212,210,6,161,247,134,160,145,110,
      162,231,254,23,7,5,204,17,155,198,167,123,107,100,127,89]
  else []

/-- The second caller has put another request under the key of the first. -/
def reusedKey : List (List (NewJob × Nat)) :=
  [[(plainRequest.newJob instant digest 1 (some "k"),11)],
    [(timedRequest.newJob instant digest 2 (some "k"),12)]]

theorem toList_instant (ms : Nat) : (instant ms).toList =
    "1970-01-01T00:00:00.00".toList ++ ((toString ms).toList ++ "Z".toList) := by
  show ("1970-01-01T00:00:00.00" ++ toString ms ++ "Z").toList = _
  rw [String.toList_append,String.toList_append,List.append_assoc]

theorem instant_injective : Function.Injective instant := by
  intro m n h
  rw [← String.toList_inj,toList_instant,toList_instant] at h
  simp only [List.append_cancel_left_eq,List.append_cancel_right_eq,String.toList_inj] at h
  exact toString_injective h

theorem bar_notMem_instant (ms : Nat) : '|' ∉ (instant ms).toList := by
  rw [toList_instant]
  simp only [List.mem_append,not_or]
  exact ⟨by decide,bar_notMem_toString ms,by decide⟩

theorem reusedKey_fresh : noJobs.Fresh (reusedKey.flatten.map (·.1)) :=
  ⟨fun _ _ r hr => (List.not_mem_nil hr).elim,by decide⟩

theorem digest_differs : digest (plainRequest.canonical instant).toByteArray ≠
    digest (timedRequest.canonical instant).toByteArray := by
  decide +kernel

end Sample

theorem replay_follows_request_reusedKey :
    (batcher Sample.noJobs Sample.reusedKey).1[0]? = some (11,.ok .created) ∧
      (batcher Sample.noJobs Sample.reusedKey).1[1]? = some (12,.ok .conflict) ∧
      ¬Sample.plainRequest.canonical Sample.instant = Sample.timedRequest.canonical Sample.instant := by
  have hne : Sample.plainRequest ≠ Sample.timedRequest := by decide
  have hfirst : (batcher Sample.noJobs Sample.reusedKey).1[0]? = some (11,.ok .created) := by
    decide +kernel
  have h := replay_follows_request Sample.instant_injective Sample.bar_notMem_instant
  obtain ⟨o,ho,-,hconflict⟩ := h.2 Sample.digest Nat Sample.noJobs Sample.reusedKey [] [] []
    Sample.plainRequest Sample.timedRequest 1 2 "k" 11 12
    (fun hd => absurd hd Sample.digest_differs) Sample.reusedKey_fresh rfl hfirst
  rw [hconflict.2 hne] at ho
  exact ⟨hfirst,ho,mt (h.1 _ _).1 hne⟩

end GumEngine
