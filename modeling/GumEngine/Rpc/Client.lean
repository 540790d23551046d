import GumEngine.Domain

/-!
# The JSON-RPC client

`RpcClient::call` of `rpc/client.rs`: a loop with two retry counters around one HTTP
exchange, and a circuit breaker that all tasks of the chain share. A `Try` is one turn of
the loop as the outside shapes it: the reply, and what other tasks do to the breaker.
-/

namespace GumEngine.Rpc

variable {α : Type}

/-- The breaker's atomics and its threshold. -/
structure Breaker where
  failureThreshold : UInt32
  consecutiveFailures : UInt32
  isOpen : Bool
deriving DecidableEq, Repr

/-- One access of another task to the atomics. -/
inductive Touch
  | clearFailures | addFailure | setOpen (v : Bool)
deriving DecidableEq, Repr

def Breaker.touch (b : Breaker) : Touch → Breaker
  | .clearFailures => { b with consecutiveFailures := 0 }
  | .addFailure => { b with consecutiveFailures := b.consecutiveFailures+1 }
  | .setOpen v => { b with isOpen := v }

def Breaker.touched (b : Breaker) (ts : List Touch) : Breaker := ts.foldl Breaker.touch b

/-- `on_success_transport` -/
def Breaker.onSuccessTransport (b : Breaker) : Breaker :=
  { b with consecutiveFailures := 0, isOpen := false }

/-- `on_transport_failure` -/
def Breaker.onTransportFailure (b : Breaker) : Breaker :=
  let failures := b.consecutiveFailures+1
  { b with
    consecutiveFailures := failures
    isOpen := if b.failureThreshold ≤ failures then true else b.isOpen }

/-- The `error` object of an answer; members that are absent or of another type are `none`. -/
structure ErrorObject where
  code : Option Int
  message : Option String
  data : Option String
deriving DecidableEq, Repr

/-- A body that parses as JSON. `error` is `none` also for a null, and `result` is what
decoding its `result` into the caller's type gives. -/
structure Envelope (α : Type) where
  error : Option ErrorObject
  result : Except String α

/-- One HTTP exchange: no complete response, or a status with a body. -/
inductive HttpReply (α : Type)
  | lost (message : String)
  | answered (status : Nat) (snippet : String) (body : Except String (Envelope α))

def httpFailure (status : Nat) (snippet : String) : RpcError :=
  .transport ("http " ++ toString status ++ ": " ++ snippet)

def isSuccess (status : Nat) : Bool := decide (200 ≤ status ∧ status < 300)

def isServerError (status : Nat) : Bool := decide (500 ≤ status ∧ status < 600)

/-- `call_once` -/
def callOnce (method : String) : HttpReply α → Except RpcError α
  | .lost message => .error (.transport message)
  | .answered status snippet body =>
    if status = 429 then .error (.rateLimited snippet)
    else if isServerError status then .error (httpFailure status snippet)
    else
      match body with
      | .error e =>
        if isSuccess status then .error (.transport ("undecodable response body: " ++ e))
        else .error (httpFailure status snippet)
      | .ok envelope =>
        match envelope.error with
        | some err =>
          let code := err.code.getD 0
          let message := err.message.getD ""
          -- 429 in the body, -32007 per second, -32008 per minute
          if code = 429 ∨ code = -32007 ∨ code = -32008 then .error (.rateLimited message)
          else .error (.response code message err.data)
        | none =>
          if isSuccess status then
            match envelope.result with
            | .ok v => .ok v
            | .error e => .error (.decode (method ++ ": " ++ e))
          else .error (httpFailure status snippet)

/-- The options of a call that its loop reads. -/
structure CallOpts where
  retryTransport : Nat
  probe : Bool
deriving DecidableEq, Repr

/-- One turn of the loop as the outside shapes it. -/
structure Try (α : Type) where
  before : List Touch
  reply : HttpReply α
  during : List Touch

def Try.result (method : String) (t : Try α) : Except RpcError α := callOnce method t.reply

/-- The breaker refuses the turn: `is_circuit_open() && !opts.probe`. -/
def refuses (opts : CallOpts) (b : Breaker) (t : Try α) : Bool :=
  (b.touched t.before).isOpen && !opts.probe

/-- How a turn ends once the exchange is over. -/
inductive Turn (α : Type)
  | finished (b : Breaker) (result : Except RpcError α)
  | again (b : Breaker) (transportRetries throttleRetries : Nat)

/-- The `match result` of the loop. -/
def onResult (opts : CallOpts) (b : Breaker) (transportRetries throttleRetries : Nat) :
    Except RpcError α → Turn α
  | .ok v => .finished b.onSuccessTransport (.ok v)
  | .error (.response code message data) =>
    .finished b.onSuccessTransport (.error (.response code message data))
  | .error (.rateLimited message) =>
    if throttleRetries+1 > 6 then .finished b (.error (.rateLimited message))
    else .again b transportRetries (throttleRetries+1)
  | .error e =>
    if transportRetries ≥ opts.retryTransport then .finished b.onTransportFailure (.error e)
    else .again b.onTransportFailure (transportRetries+1) throttleRetries

/-- What a call gives back, and how each of the tries that went out ended. -/
structure Called (α : Type) where
  result : Except RpcError α
  breaker : Breaker
  sent : List (Except RpcError α)

def Called.after (r : List (Except RpcError α)) (out : Called α) : Called α :=
  { out with sent := r++out.sent }

/-- `RpcClient::call`, from any point of its loop; `none` while it still runs. -/
def call (chainId : ChainId) (method : String) (opts : CallOpts) :
    Breaker → Nat → Nat → List (Try α) → Option (Called α)
  | _,_,_,[] => none
  | b,transportRetries,throttleRetries,t :: ts =>
    if refuses opts b t then some ⟨.error (.circuitOpen chainId),b.touched t.before,[]⟩
    else
      match onResult opts ((b.touched t.before).touched t.during) transportRetries
        throttleRetries (t.result method) with
      | .finished b' result => some ⟨result,b',[t.result method]⟩
      | .again b' transportRetries' throttleRetries' =>
        (call chainId method opts b' transportRetries' throttleRetries' ts).map
          (Called.after [t.result method])

/-- `send_raw` -/
def sendRaw (chainId : ChainId) (retryTransport : Nat) (b : Breaker) (ts : List (Try B256)) :
    Option (Called B256) :=
  call chainId "eth_sendRawTransaction" ⟨retryTransport,false⟩ b 0 0 ts

/-- The try may have reached the node: it was answered by it, or its end is not known. -/
def mayHaveReached : Except RpcError α → Bool
  | .error (.rateLimited _) | .error (.circuitOpen _) => false
  | _ => true

/-- An error classed as not delivered was not: no try of the call can have reached the node. -/
def Honest (out : Option (Called α)) : Prop :=
  ∀ c e, out = some c → c.result = .error e → e.isDefinitelyNotDelivered = true →
    ∀ r ∈ c.sent, mayHaveReached r = false

section Turns

variable {chainId : ChainId} {method : String} {opts : CallOpts} {b : Breaker}
  {transportRetries throttleRetries : Nat} {t : Try α} {r : Except RpcError α}

/-- Answered with a rate limit. -/
def throttled : Except RpcError α → Bool
  | .error (.rateLimited _) => true
  | _ => false

/-- Ended without an answer that can be read. -/
def unanswered : Except RpcError α → Bool
  | .error (.transport _) | .error (.decode _) => true
  | _ => false

/-- The node gave the caller's answer, and the call ends with it. -/
def answered : Except RpcError α → Bool
  | .ok _ | .error (.response ..) => true
  | _ => false

/-- An exchange never ends in `CircuitOpen`. -/
theorem result_cases (method : String) (t : Try α) :
    answered (t.result method) = true ∨ throttled (t.result method) = true ∨
      unanswered (t.result method) = true := by
  unfold Try.result callOnce
  cases t.reply with
  | lost message => exact .inr (.inr rfl)
  | answered status snippet body =>
    dsimp only
    split
    · exact .inr (.inl rfl)
    · split
      · exact .inr (.inr rfl)
      · cases body with
        | error e => cases isSuccess status <;> exact .inr (.inr rfl)
        | ok envelope =>
          dsimp only
          split
          · split
            · exact .inr (.inl rfl)
            · exact .inl rfl
          · cases isSuccess status with
            | false => exact .inr (.inr rfl)
            | true =>
              cases envelope.result with
              | ok v => exact .inl rfl
              | error e => exact .inr (.inr rfl)

theorem onResult_throttled (hr : throttled r = true) (h : throttleRetries < 6) :
    onResult opts b transportRetries throttleRetries r =
      .again b transportRetries (throttleRetries+1) := by
  unfold throttled at hr
  split at hr
  · exact if_neg (by omega)
  · simp at hr

theorem onResult_throttled_last (hr : throttled r = true) (h : 6 ≤ throttleRetries) :
    onResult opts b transportRetries throttleRetries r = .finished b r := by
  unfold throttled at hr
  split at hr
  · exact if_pos (by omega)
  · simp at hr

theorem onResult_unanswered (hr : unanswered r = true)
    (h : transportRetries < opts.retryTransport) :
    onResult opts b transportRetries throttleRetries r =
      .again b.onTransportFailure (transportRetries+1) throttleRetries := by
  unfold unanswered at hr
  split at hr
  · exact if_neg (by omega)
  · exact if_neg (by omega)
  · simp at hr

theorem onResult_unanswered_last (hr : unanswered r = true)
    (h : opts.retryTransport ≤ transportRetries) :
    onResult opts b transportRetries throttleRetries r = .finished b.onTransportFailure r := by
  unfold unanswered at hr
  split at hr
  · exact if_pos h
  · exact if_pos h
  · simp at hr

theorem onResult_answered (hr : answered r = true) :
    onResult opts b transportRetries throttleRetries r = .finished b.onSuccessTransport r := by
  unfold answered at hr
  split at hr
  · rfl
  · rfl
  · simp at hr

theorem mayHaveReached_of_throttled (hr : throttled r = true) : mayHaveReached r = false := by
  unfold throttled at hr
  split at hr
  · rfl
  · simp at hr

theorem mayHaveReached_of_unanswered (hr : unanswered r = true) : mayHaveReached r = true := by
  unfold unanswered at hr
  split at hr
  · rfl
  · rfl
  · simp at hr

/-- The loop asks again: the exchange was throttled, or it was lost and may be repeated. -/
def retried (r : Except RpcError α) : Bool := throttled r || unanswered r

/-- The breaker behind a turn that asks again. -/
def Breaker.next (method : String) (b : Breaker) (t : Try α) : Breaker :=
  let b' := (b.touched t.before).touched t.during
  if unanswered (t.result method) then b'.onTransportFailure else b'

/-- The breaker behind several of them. -/
def Breaker.past (method : String) (b : Breaker) (ts : List (Try α)) : Breaker :=
  ts.foldl (Breaker.next method) b

/-- All of these turns were let through by the breaker and ended so that the loop may ask
again. -/
def Retried (method : String) (opts : CallOpts) : Breaker → List (Try α) → Prop
  | _,[] => True
  | b,t :: ts =>
    refuses opts b t = false ∧ retried (t.result method) = true ∧
      Retried method opts (b.next method t) ts

def unansweredCount (method : String) (ts : List (Try α)) : Nat :=
  ts.countP fun t => unanswered (t.result method)

def throttledCount (method : String) (ts : List (Try α)) : Nat :=
  ts.countP fun t => throttled (t.result method)

theorem not_unanswered_of_throttled (hr : throttled r = true) : unanswered r = false := by
  unfold throttled at hr
  split at hr
  · rfl
  · simp at hr

/-- A throttled turn spends one of the throttle retries and nothing else. -/
theorem counts_cons_throttled (pre : List (Try α)) (hr : throttled (t.result method) = true) :
    unansweredCount method (t :: pre) = unansweredCount method pre ∧
      throttledCount method (t :: pre) = throttledCount method pre+1 := by
  have hu := not_unanswered_of_throttled hr
  exact ⟨List.countP_cons_of_neg (by simp [hu]),List.countP_cons_of_pos hr⟩

theorem counts_cons_unanswered (pre : List (Try α)) (hr : unanswered (t.result method) = true) :
    unansweredCount method (t :: pre) = unansweredCount method pre+1 ∧
      throttledCount method (t :: pre) = throttledCount method pre := by
  have ht : ¬ throttled (t.result method) = true := by
    intro ht
    rw [not_unanswered_of_throttled ht] at hr
    cases hr
  exact ⟨List.countP_cons_of_pos hr,List.countP_cons_of_neg ht⟩

theorem call_cons_unanswered {ts : List (Try α)} (hf : refuses opts b t = false)
    (hr : unanswered (t.result method) = true) (h : transportRetries < opts.retryTransport) :
    call chainId method opts b transportRetries throttleRetries (t :: ts) =
      (call chainId method opts (b.next method t) (transportRetries+1) throttleRetries ts).map
        (Called.after [t.result method]) := by
  rw [call,hf,onResult_unanswered hr h,Breaker.next,hr]
  rfl

theorem call_cons_throttled {ts : List (Try α)} (hf : refuses opts b t = false)
    (hr : throttled (t.result method) = true) (h : throttleRetries < 6) :
    call chainId method opts b transportRetries throttleRetries (t :: ts) =
      (call chainId method opts (b.next method t) transportRetries (throttleRetries+1) ts).map
        (Called.after [t.result method]) := by
  rw [call,hf,onResult_throttled hr h,Breaker.next,not_unanswered_of_throttled hr]
  rfl

/-- A call gets through turns that ask again as long as both counters allow it. -/
theorem call_append {pre ts : List (Try α)} (hp : Retried method opts b pre)
    (hu : transportRetries+unansweredCount method pre ≤ opts.retryTransport)
    (ht : throttleRetries+throttledCount method pre ≤ 6) :
    call chainId method opts b transportRetries throttleRetries (pre++ts) =
      (call chainId method opts (b.past method pre)
        (transportRetries+unansweredCount method pre)
        (throttleRetries+throttledCount method pre) ts).map
          (Called.after (pre.map (Try.result method))) := by
  induction pre generalizing b transportRetries throttleRetries with
  | nil =>
    show _ = Option.map id (call chainId method opts b transportRetries throttleRetries ts)
    rw [Option.map_id]
    rfl
  | cons t pre ih =>
    obtain ⟨hf,hr,hp⟩ := hp
    -- one turn by the counter it spends, then the rest of the turns
    cases hr' : unanswered (t.result method) with
    | true =>
      obtain ⟨hcu,hct⟩ := counts_cons_unanswered pre hr'
      rw [hcu] at hu ⊢
      rw [hct] at ht ⊢
      rw [List.cons_append,call_cons_unanswered hf hr' (by omega),ih hp (by omega) ht,
        Option.map_map,show transportRetries+(unansweredCount method pre+1) =
          transportRetries+1+unansweredCount method pre by omega]
      rfl
    | false =>
      rw [retried,hr',Bool.or_false] at hr
      obtain ⟨hcu,hct⟩ := counts_cons_throttled pre hr
      rw [hcu] at hu ⊢
      rw [hct] at ht ⊢
      rw [List.cons_append,call_cons_throttled hf hr (by omega),ih hp hu (by omega),
        Option.map_map,show throttleRetries+(throttledCount method pre+1) =
          throttleRetries+1+throttledCount method pre by omega]
      rfl

/-- How a call that returned got there: turns that asked again, then one that the breaker
refused or whose result ends the loop. -/
def Ended (method : String) (opts : CallOpts) (b : Breaker) (transportRetries throttleRetries : Nat)
    (ts : List (Try α)) (out : Called α) : Prop :=
  ∃ pre t post, ts = pre++t :: post ∧ Retried method opts b pre ∧
    transportRetries+unansweredCount method pre ≤ opts.retryTransport ∧
    throttleRetries+throttledCount method pre ≤ 6 ∧
    (refuses opts (b.past method pre) t = true ∧ out.sent = pre.map (Try.result method) ∨
      refuses opts (b.past method pre) t = false ∧ out.result = t.result method ∧
        out.sent = pre.map (Try.result method)++[t.result method] ∧
        (throttled out.result = true → throttleRetries+throttledCount method pre = 6))

theorem Ended.cons_unanswered {ts : List (Try α)} {out : Called α}
    (hf : refuses opts b t = false) (hr : unanswered (t.result method) = true)
    (h : Ended method opts (b.next method t) (transportRetries+1) throttleRetries ts out) :
    Ended method opts b transportRetries throttleRetries (t :: ts)
      (out.after [t.result method]) := by
  obtain ⟨pre,u,post,rfl,hp,hu,ht,hend⟩ := h
  obtain ⟨hcu,hct⟩ := counts_cons_unanswered pre hr
  refine ⟨t :: pre,u,post,rfl,⟨hf,by simp [retried,hr],hp⟩,by omega,by omega,?_⟩
  rw [hct]
  obtain ⟨hf',hs⟩ | ⟨hf',hres,hs,hlast⟩ := hend
  · exact .inl ⟨hf',by simp [Called.after,hs]⟩
  · exact .inr ⟨hf',hres,by simp [Called.after,hs],hlast⟩

theorem Ended.cons_throttled {ts : List (Try α)} {out : Called α}
    (hf : refuses opts b t = false) (hr : throttled (t.result method) = true)
    (h : Ended method opts (b.next method t) transportRetries (throttleRetries+1) ts out) :
    Ended method opts b transportRetries throttleRetries (t :: ts)
      (out.after [t.result method]) := by
  obtain ⟨pre,u,post,rfl,hp,hu,ht,hend⟩ := h
  obtain ⟨hcu,hct⟩ := counts_cons_throttled pre hr
  refine ⟨t :: pre,u,post,rfl,⟨hf,by simp [retried,hr],hp⟩,by omega,by omega,?_⟩
  rw [hct]
  obtain ⟨hf',hs⟩ | ⟨hf',hres,hs,hlast⟩ := hend
  · exact .inl ⟨hf',by simp [Called.after,hs]⟩
  · refine .inr ⟨hf',hres,by simp [Called.after,hs],fun h => ?_⟩
    have := hlast h
    omega

/-- The last turn of a call whose result ends the loop. -/
theorem Ended.last {ts : List (Try α)} {b' : Breaker} (hu : transportRetries ≤ opts.retryTransport)
    (ht : throttleRetries ≤ 6) (hf : refuses opts b t = false)
    (hlast : throttled (t.result method) = true → throttleRetries = 6) :
    Ended method opts b transportRetries throttleRetries (t :: ts)
      ⟨t.result method,b',[t.result method]⟩ :=
  ⟨[],t,ts,rfl,trivial,hu,ht,.inr ⟨hf,rfl,rfl,hlast⟩⟩

theorem call_ended {ts : List (Try α)} {out : Called α}
    (hu : transportRetries ≤ opts.retryTransport) (ht : throttleRetries ≤ 6)
    (h : call chainId method opts b transportRetries throttleRetries ts = some out) :
    Ended method opts b transportRetries throttleRetries ts out := by
  induction ts generalizing b transportRetries throttleRetries out with
  | nil => simp [call] at h
  | cons t ts ih =>
    cases hf : refuses opts b t with
    | true =>
      rw [call,hf] at h
      cases h
      exact ⟨[],t,ts,rfl,trivial,hu,ht,.inl ⟨hf,rfl⟩⟩
    | false =>
      obtain hr | hr | hr := result_cases method t
      · rw [call,hf,onResult_answered hr] at h
        cases h
        refine Ended.last hu ht hf fun h => ?_
        unfold throttled at h
        split at h <;> simp_all [answered]
      · by_cases hlt : throttleRetries < 6
        · rw [call_cons_throttled hf hr hlt] at h
          obtain ⟨out',h',rfl⟩ := Option.map_eq_some_iff.1 h
          exact (ih hu hlt h').cons_throttled hf hr
        · rw [call,hf,onResult_throttled_last hr (by omega)] at h
          cases h
          exact Ended.last hu ht hf fun _ => by omega
      · by_cases hlt : transportRetries < opts.retryTransport
        · rw [call_cons_unanswered hf hr hlt] at h
          obtain ⟨out',h',rfl⟩ := Option.map_eq_some_iff.1 h
          exact (ih hlt ht h').cons_unanswered hf hr
        · rw [call,hf,onResult_unanswered_last hr (by omega)] at h
          cases h
          refine Ended.last hu ht hf fun h => ?_
          rw [not_unanswered_of_throttled h] at hr
          cases hr

/-- The loop ends: no call makes more turns than its two counters allow. -/
theorem call_isSome {ts : List (Try α)} (hu : transportRetries ≤ opts.retryTransport)
    (ht : throttleRetries ≤ 6)
    (h : opts.retryTransport+6 < ts.length+transportRetries+throttleRetries) :
    (call chainId method opts b transportRetries throttleRetries ts).isSome := by
  induction ts generalizing b transportRetries throttleRetries with
  | nil =>
    simp only [List.length_nil] at h
    omega
  | cons t ts ih =>
    rw [List.length_cons] at h
    cases hf : refuses opts b t with
    | true =>
      rw [call,hf]
      rfl
    | false =>
      obtain hr | hr | hr := result_cases method t
      · rw [call,hf,onResult_answered hr]
        rfl
      · by_cases hlt : throttleRetries < 6
        · rw [call_cons_throttled hf hr hlt,Option.isSome_map]
          exact ih hu hlt (by omega)
        · rw [call,hf,onResult_throttled_last hr (by omega)]
          rfl
      · by_cases hlt : transportRetries < opts.retryTransport
        · rw [call_cons_unanswered hf hr hlt,Option.isSome_map]
          exact ih hlt ht (by omega)
        · rw [call,hf,onResult_unanswered_last hr (by omega)]
          rfl

end Turns

section Delivery

variable {chainId : ChainId} {method : String} {opts : CallOpts} {b : Breaker}
  {ts : List (Try α)}

/-- At least one turn is lost and repeated, and then a refusal of the breaker or a seventh rate
limit stops the loop. -/
def Mixed (method : String) (opts : CallOpts) (b : Breaker) (ts : List (Try α)) : Prop :=
  ∃ pre t post, ts = pre++t :: post ∧ Retried method opts b pre ∧
    0 < unansweredCount method pre ∧ unansweredCount method pre ≤ opts.retryTransport ∧
    throttledCount method pre ≤ 6 ∧
    (refuses opts (b.past method pre) t = true ∨
      throttled (t.result method) = true ∧ throttledCount method pre = 6)

theorem Retried.retried_of_mem {pre : List (Try α)} (h : Retried method opts b pre) {t : Try α}
    (ht : t ∈ pre) : retried (t.result method) = true := by
  induction pre generalizing b with
  | nil => simp at ht
  | cons u pre ih =>
    obtain rfl | ht := List.mem_cons.1 ht
    · exact h.2.1
    · exact ih h.2.2 ht

/-- A lost turn is the only one of those that ask again which may have reached the node. -/
theorem Retried.unansweredCount_pos {pre : List (Try α)} (h : Retried method opts b pre)
    {r : Except RpcError α} (hr : r ∈ pre.map (Try.result method))
    (hreached : mayHaveReached r = true) : 0 < unansweredCount method pre := by
  obtain ⟨t,ht,rfl⟩ := List.mem_map.1 hr
  refine List.countP_pos_iff.2 ⟨t,ht,?_⟩
  have hret := h.retried_of_mem ht
  cases hu : unanswered (t.result method) with
  | true => rfl
  | false =>
    rw [retried,hu,Bool.or_false] at hret
    rw [mayHaveReached_of_throttled hret] at hreached
    cases hreached

theorem throttled_of_notDelivered {t : Try α} {e : RpcError} (h : t.result method = .error e)
    (he : e.isDefinitelyNotDelivered = true) : throttled (t.result method) = true := by
  have hc := result_cases method t
  rw [h] at hc ⊢
  cases e <;> simp_all [RpcError.isDefinitelyNotDelivered,answered,throttled,unanswered]

theorem honest_of_not_mixed (h : ¬ Mixed method opts b ts) :
    Honest (call chainId method opts b 0 0 ts) := by
  intro out e hout hres hnd r hr
  rw [Bool.eq_false_iff]
  intro hreached
  apply h
  obtain ⟨pre,t,post,rfl,hp,hu,ht,hend⟩ := call_ended (Nat.zero_le _) (Nat.zero_le _) hout
  rw [Nat.zero_add] at hu ht
  obtain ⟨hf,hs⟩ | ⟨hf,hres',hs,hlast⟩ := hend
  · rw [hs] at hr
    exact ⟨pre,t,post,rfl,hp,hp.unansweredCount_pos hr hreached,hu,ht,.inl hf⟩
  · have hth : throttled (t.result method) = true :=
      throttled_of_notDelivered (hres'.symm.trans hres) hnd
    rw [hs,List.mem_append,List.mem_singleton] at hr
    rw [hres',Nat.zero_add] at hlast
    obtain hr | rfl := hr
    · exact ⟨pre,t,post,rfl,hp,hp.unansweredCount_pos hr hreached,hu,ht,.inr ⟨hth,hlast hth⟩⟩
    · rw [mayHaveReached_of_throttled hth] at hreached
      cases hreached

theorem exists_unanswered {pre : List (Try α)} (h : 0 < unansweredCount method pre) :
    ∃ r ∈ pre.map (Try.result method), mayHaveReached r = true := by
  obtain ⟨t,ht,hu⟩ := List.countP_pos_iff.1 h
  exact ⟨t.result method,List.mem_map_of_mem ht,mayHaveReached_of_unanswered hu⟩

/-- What the last turn of a mixed call gives back is classed as not delivered. -/
theorem call_cons_notDelivered {t : Try α} {post : List (Try α)}
    {transportRetries throttleRetries : Nat}
    (h : refuses opts b t = true ∨
      throttled (t.result method) = true ∧ throttleRetries = 6) :
    ∃ out e, call chainId method opts b transportRetries throttleRetries (t :: post) = some out ∧
      out.result = .error e ∧ e.isDefinitelyNotDelivered = true := by
  cases hf : refuses opts b t with
  | true =>
    rw [call,hf]
    exact ⟨_,.circuitOpen chainId,rfl,rfl,rfl⟩
  | false =>
    obtain hf' | ⟨hth,rfl⟩ := h
    · rw [hf] at hf'
      cases hf'
    rw [call,hf,onResult_throttled_last hth le_rfl]
    unfold throttled at hth
    split at hth
    next message hres => exact ⟨_,.rateLimited message,rfl,hres,rfl⟩
    next => simp at hth

theorem not_honest_of_mixed (h : Mixed method opts b ts) :
    ¬ Honest (call chainId method opts b 0 0 ts) := by
  obtain ⟨pre,t,post,rfl,hp,hpos,hu,ht,hend⟩ := h
  intro hhonest
  have hrun : call chainId method opts b 0 0 (pre++t :: post) = _ :=
    call_append hp (by omega) (by omega)
  obtain ⟨out,e,hout,hres,he⟩ : ∃ out e, call chainId method opts (b.past method pre)
      (0+unansweredCount method pre) (0+throttledCount method pre) (t :: post) = some out ∧
        out.result = .error e ∧ e.isDefinitelyNotDelivered = true :=
    call_cons_notDelivered (by rwa [Nat.zero_add])
  rw [hout] at hrun
  obtain ⟨r,hr,hreached⟩ := exists_unanswered hpos
  have := hhonest _ e hrun hres he r (List.mem_append_left _ hr)
  rw [hreached] at this
  cases this

/-- A call that lost its first try and was then throttled to the end. -/
def lostThenThrottled : List (Try α) :=
  ⟨[.setOpen false],.lost "operation timed out",[]⟩ ::
    List.replicate 7 ⟨[.setOpen false],.answered 429 "" (.error ""),[]⟩

theorem lostThenThrottled_mixed (h : 0 < opts.retryTransport) :
    Mixed method opts b (lostThenThrottled : List (Try α)) := by
  refine ⟨⟨[.setOpen false],.lost "operation timed out",[]⟩ ::
    List.replicate 6 ⟨[.setOpen false],.answered 429 "" (.error ""),[]⟩,
    ⟨[.setOpen false],.answered 429 "" (.error ""),[]⟩,[],rfl,?_,Nat.one_pos,h,le_rfl,
    .inr ⟨rfl,rfl⟩⟩
  exact ⟨rfl,rfl,rfl,rfl,rfl,rfl,rfl,rfl,rfl,rfl,rfl,rfl,rfl,rfl,trivial⟩

/-- With no transport retry the last error speaks for the whole call. -/
theorem not_mixed_of_no_retry (h : opts.retryTransport = 0) : ¬ Mixed method opts b ts := by
  rintro ⟨pre,t,post,-,-,hpos,hu,-,-⟩
  omega

/-- A not-delivered error is true of the whole call exactly when the tries are not mixed, and
of every course of the call exactly when it repeats no lost try; the call always ends. -/
theorem call_honest_iff (chainId : ChainId) (method : String) (opts : CallOpts) (b : Breaker) :
    (∀ ts : List (Try α), Honest (call chainId method opts b 0 0 ts) ↔
      ¬ Mixed method opts b ts) ∧
    ((∀ ts : List (Try α), Honest (call chainId method opts b 0 0 ts)) ↔
      opts.retryTransport = 0) ∧
    (∀ n, (∀ ts, Honest (sendRaw chainId n b ts)) ↔ n = 0) ∧
    ∀ ts : List (Try α), opts.retryTransport+7 ≤ ts.length →
      (call chainId method opts b 0 0 ts).isSome := by
  have hiff : ∀ {β : Type} (method : String) (opts : CallOpts) (ts : List (Try β)),
      Honest (call chainId method opts b 0 0 ts) ↔ ¬ Mixed method opts b ts := fun _ _ _ =>
    ⟨fun h hm => not_honest_of_mixed hm h,honest_of_not_mixed⟩
  have hall : ∀ {β : Type} (method : String) (opts : CallOpts),
      (∀ ts : List (Try β), Honest (call chainId method opts b 0 0 ts)) ↔
        opts.retryTransport = 0 := by
    intro β method opts
    constructor
    · intro h
      by_contra hpos
      exact (hiff method opts _).1 (h lostThenThrottled)
        (lostThenThrottled_mixed (Nat.pos_of_ne_zero hpos))
    · intro h ts
      exact (hiff method opts ts).2 (not_mixed_of_no_retry h)
  refine ⟨hiff method opts,hall method opts,fun n => hall _ ⟨n,false⟩,fun ts h => ?_⟩
  exact call_isSome (Nat.zero_le _) (Nat.zero_le _) (by omega)

/-- A broadcast as the driver makes it: the first try times out and is the failure that opens
the breaker, so the second turn is refused and the call says that nothing was delivered. -/
theorem sendRaw_lost_then_refused :
    ¬ Honest (sendRaw 143 2 ⟨5,4,false⟩
      [⟨[],.lost "operation timed out",[]⟩,⟨[],.lost "operation timed out",[]⟩]) := by
  intro h
  have := h ⟨.error (.circuitOpen 143),⟨5,5,true⟩,[.error (.transport "operation timed out")]⟩
    (.circuitOpen 143) rfl rfl rfl _ (List.mem_singleton_self _)
  cases this

end Delivery

end GumEngine.Rpc
