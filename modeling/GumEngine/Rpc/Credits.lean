import GumEngine.Sliding.Ring

/-!
# Credit accounting

`rpc/credits.rs`. The meter rolls its ring of minutes and its day forward when a call is billed,
and only then; `credits_today` looks at the day again, `snapshot` does not. The float that
`snapshot` makes of the ring is left out, its argument is `windowCredits`.
-/

namespace GumEngine.Rpc
open Sliding

/-- `started.elapsed()` in seconds, and the UTC day. -/
structure Moment where
  elapsed : Nat
  day : Int
deriving DecidableEq, Repr

def Moment.minute (t : Moment) : Nat := t.elapsed/60

instance : LE Moment := ⟨fun a b => a.elapsed ≤ b.elapsed ∧ a.day ≤ b.day⟩

instance (a b : Moment) : Decidable (a ≤ b) :=
  inferInstanceAs (Decidable (a.elapsed ≤ b.elapsed ∧ a.day ≤ b.day))

theorem Moment.minute_le {a b : Moment} (h : a ≤ b) : a.minute ≤ b.minute := Nat.div_le_div_right h.1

structure CreditMeter where
  creditsPerCall : Nat
  calls : Nat
  errors : Nat
  credits : Nat
  byMethod : String → Nat
  /-- Credits per minute over the last hour, for burn-rate projection. -/
  minutes : Fin 60 → Nat
  currentMinute : Nat
  day : Int
  creditsToday : Nat

structure CreditSnapshot where
  calls : Nat
  errors : Nat
  creditsUsed : Nat
  creditsToday : Nat
  windowCredits : Nat
  byMethod : String → Nat

/-- A call that is recorded. -/
structure RpcCall where
  time : Moment
  method : String
  success : Bool
deriving DecidableEq, Repr

namespace CreditMeter

def new (creditsPerCall : Nat) (day : Int) : CreditMeter where
  creditsPerCall := creditsPerCall
  calls := 0
  errors := 0
  credits := 0
  byMethod _ := 0
  minutes _ := 0
  currentMinute := 0
  day := day
  creditsToday := 0

/-- The part of `record` that a successful call reaches. -/
def bill (m : CreditMeter) (now : Moment) : CreditMeter :=
  let minutes := if now.minute ≠ m.currentMinute then
      clear m.minutes m.currentMinute (min (now.minute-m.currentMinute) 60)
    else m.minutes
  { m with
    credits := m.credits+m.creditsPerCall
    minutes := Function.update minutes (slot 60 now.minute)
      (minutes (slot 60 now.minute)+m.creditsPerCall)
    currentMinute := now.minute
    day := now.day
    creditsToday := (if now.day ≠ m.day then 0 else m.creditsToday)+m.creditsPerCall }

def record (m : CreditMeter) (c : RpcCall) : CreditMeter :=
  let m := { m with
    calls := m.calls+1
    byMethod := Function.update m.byMethod c.method (m.byMethod c.method+1) }
  if c.success then m.bill c.time else { m with errors := m.errors+1 }

def creditsTodayAt (m : CreditMeter) (now : Moment) : Nat :=
  if now.day = m.day then m.creditsToday else 0

def snapshot (m : CreditMeter) : CreditSnapshot where
  calls := m.calls
  errors := m.errors
  creditsUsed := m.credits
  creditsToday := m.creditsToday
  windowCredits := ∑ i, m.minutes i
  byMethod := m.byMethod

end CreditMeter

/-- The calls that were billed. -/
def billed (calls : List RpcCall) : List RpcCall := calls.filter (·.success)

/-- The credits of every billed call, by a property of its time. -/
def creditLog {T : Type} (rate : Nat) (f : Moment → T) (calls : List RpcCall) : List (T × Nat) :=
  (billed calls).map fun c => (f c.time,rate)

/-- The credits of the 60 minute buckets up to `t`. -/
def windowOf (rate : Nat) (calls : List RpcCall) (t : Moment) : Nat :=
  amount (fun m => t.minute < m+60) (creditLog rate Moment.minute calls)

/-- The credits of the UTC day of `t`. -/
def dayOf (rate : Nat) (calls : List RpcCall) (t : Moment) : Nat :=
  amount (· = t.day) (creditLog rate Moment.day calls)

/-- The meter against the calls it has recorded. -/
structure Metered (rate : Nat) (day : Int) (calls : List RpcCall) (m : CreditMeter) : Prop where
  price : m.creditsPerCall = rate
  ring : Holds m.minutes m.currentMinute (creditLog rate Moment.minute calls)
  today : m.creditsToday = amount (· = m.day) (creditLog rate Moment.day calls)
  bound : ∀ c ∈ billed calls, c.time.minute ≤ m.currentMinute ∧ c.time.day ≤ m.day
  last : ∀ c ∈ (billed calls).getLast?, m.currentMinute = c.time.minute ∧ m.day = c.time.day
  none : billed calls = [] → m.currentMinute = 0 ∧ m.day = day

section Metered

variable {rate : Nat} {day : Int} {calls : List RpcCall} {m : CreditMeter} {c : RpcCall} {t : Moment}

theorem billed_append (calls : List RpcCall) (c : RpcCall) :
    billed (calls++[c]) = if c.success then billed calls++[c] else billed calls := by
  rw [billed,List.filter_append]
  by_cases h : c.success
  · simp [billed,h]
  · simp [billed,h]

/-- The meter is never ahead of the clocks. -/
theorem Metered.reached (h : Metered rate day calls m) (hday : day ≤ t.day)
    (ht : ∀ c ∈ calls, c.time ≤ t) : m.currentMinute ≤ t.minute ∧ m.day ≤ t.day := by
  cases hlast : (billed calls).getLast? with
  | none =>
    obtain ⟨hminute,hd⟩ := h.none (List.getLast?_eq_none_iff.1 hlast)
    rw [hminute,hd]
    exact ⟨Nat.zero_le _,hday⟩
  | some c =>
    have hc := ht c (List.mem_of_mem_filter (List.mem_of_getLast? hlast))
    obtain ⟨hminute,hd⟩ := h.last c hlast
    rw [hminute,hd]
    exact ⟨Moment.minute_le hc,hc.2⟩

theorem Metered.new (rate : Nat) (day : Int) : Metered rate day [] (.new rate day) where
  price := rfl
  ring := Holds.empty 0
  today := rfl
  bound c hc := absurd hc List.not_mem_nil
  last c hc := absurd hc (by simp [billed])
  none _ := ⟨rfl,rfl⟩

/-- Every minute but the current one rolls the ring. -/
theorem Metered.rolled (h : Metered rate day calls m) (hnow : m.currentMinute ≤ t.minute) :
    Holds (if t.minute ≠ m.currentMinute then
        clear m.minutes m.currentMinute (min (t.minute-m.currentMinute) 60) else m.minutes)
      t.minute (creditLog rate Moment.minute calls) := by
  by_cases hne : t.minute ≠ m.currentMinute
  · rw [if_pos hne]
    refine h.ring.advance (fun x hx => ?_) hnow
    obtain ⟨c,hc,rfl⟩ := List.mem_map.1 hx
    exact (h.bound c hc).1
  · rw [if_neg hne,not_not.1 hne]
    exact h.ring

theorem Metered.bill (h : Metered rate day calls m) (hc : c.success = true) (hday : day ≤ c.time.day)
    (hcalls : ∀ x ∈ calls, x.time ≤ c.time) : Metered rate day (calls++[c]) (m.bill c.time) := by
  obtain ⟨hminute,hd⟩ := h.reached hday hcalls
  have hbilled : billed (calls++[c]) = billed calls++[c] := by rw [billed_append,if_pos hc]
  have hlog {T : Type} (f : Moment → T) :
      creditLog rate f (calls++[c]) = creditLog rate f calls++[(f c.time,rate)] := by
    rw [creditLog,hbilled,List.map_append]
    rfl
  refine ⟨h.price,?_,?_,fun x hx => ?_,fun x hx => ?_,fun hnil => ?_⟩
  · rw [hlog]
    have hring := (h.rolled hminute).add rate
    rw [← h.price] at hring ⊢
    exact hring
  · have hself : c.time.day = (m.bill c.time).day := rfl
    rw [hlog,amount_append,amount_singleton,if_pos hself]
    show (if c.time.day ≠ m.day then 0 else m.creditsToday)+m.creditsPerCall =
      amount (· = c.time.day) (creditLog rate Moment.day calls)+rate
    rw [h.price]
    by_cases hne : c.time.day ≠ m.day
    · -- a new day: nothing was billed on it before
      rw [if_pos hne,amount_eq_zero]
      intro x hx
      obtain ⟨y,hy,rfl⟩ := List.mem_map.1 hx
      have hy' := (h.bound y hy).2
      show y.time.day ≠ c.time.day
      omega
    · rw [if_neg hne,h.today,not_not.1 hne]
  · rw [hbilled] at hx
    obtain hx | hx := List.mem_append.1 hx
    · have hle := hcalls x (List.mem_of_mem_filter hx)
      exact ⟨Moment.minute_le hle,hle.2⟩
    · rw [List.mem_singleton.1 hx]
      exact ⟨le_rfl,le_rfl⟩
  · rw [hbilled,List.getLast?_append,List.getLast?_singleton] at hx
    obtain rfl : c = x := by simpa using hx
    exact ⟨rfl,rfl⟩
  · rw [hbilled] at hnil
    exact absurd hnil (by simp)

/-- A failed call leaves ring and day alone. -/
theorem Metered.unbilled (h : Metered rate day calls m) (hc : c.success = false) {m' : CreditMeter}
    (hm : m'.creditsPerCall = m.creditsPerCall ∧ m'.minutes = m.minutes ∧
      m'.currentMinute = m.currentMinute ∧ m'.day = m.day ∧ m'.creditsToday = m.creditsToday) :
    Metered rate day (calls++[c]) m' := by
  obtain ⟨hrate,hminutes,hcurrent,hday,htoday⟩ := hm
  have hbilled : billed (calls++[c]) = billed calls := by
    rw [billed_append,if_neg (by simp [hc])]
  have hlog {T : Type} (f : Moment → T) :
      creditLog rate f (calls++[c]) = creditLog rate f calls := by
    rw [creditLog,hbilled]
    rfl
  refine ⟨?_,?_,?_,?_,?_,?_⟩
  · rw [hrate,h.price]
  · rw [hlog,hminutes,hcurrent]
    exact h.ring
  · rw [hlog,htoday,hday]
    exact h.today
  · rw [hbilled,hcurrent,hday]
    exact h.bound
  · rw [hbilled,hcurrent,hday]
    exact h.last
  · rw [hbilled,hcurrent,hday]
    exact h.none

theorem Metered.record (h : Metered rate day calls m) (hday : day ≤ c.time.day)
    (hcalls : ∀ x ∈ calls, x.time ≤ c.time) : Metered rate day (calls++[c]) (m.record c) := by
  cases hc : c.success with
  | true =>
    have hcounted : Metered rate day calls { m with
        calls := m.calls+1
        byMethod := Function.update m.byMethod c.method (m.byMethod c.method+1) } :=
      ⟨h.price,h.ring,h.today,h.bound,h.last,h.none⟩
    rw [CreditMeter.record,hc]
    exact hcounted.bill hc hday hcalls
  | false =>
    rw [CreditMeter.record,hc]
    exact h.unbilled hc ⟨rfl,rfl,rfl,rfl,rfl⟩

/-- Over a whole run. -/
theorem Metered.of_calls (rate : Nat) {day : Int} {calls : List RpcCall}
    (hday : ∀ c ∈ calls, day ≤ c.time.day) (horder : calls.Pairwise fun a b => a.time ≤ b.time) :
    Metered rate day calls (calls.foldl CreditMeter.record (.new rate day)) := by
  induction calls using List.reverseRecOn with
  | nil => exact .new rate day
  | append_singleton calls c ih =>
    obtain ⟨hpre,-,hc⟩ := List.pairwise_append.1 horder
    rw [List.foldl_append]
    refine (ih (fun x hx => hday x (List.mem_append_left _ hx)) hpre).record ?_ fun x hx => ?_
    · exact hday c (List.mem_append_right _ List.mem_cons_self)
    · exact hc x hx c List.mem_cons_self

/-- The ring is exact as long as nothing has left the window since the last billed call. -/
theorem Metered.window_iff (h : Metered rate day calls m) (hnow : m.currentMinute ≤ t.minute) :
    m.snapshot.windowCredits = windowOf rate calls t ↔
      rate = 0 ∨ ∀ c ∈ billed calls, m.currentMinute < c.time.minute+60 → t.minute < c.time.minute+60 := by
  have hsplit := amount_split (q := fun k => t.minute < k+60) (p := fun k => m.currentMinute < k+60)
    (fun k hk => by omega) (creditLog rate Moment.minute calls)
  have hwindow : m.snapshot.windowCredits = amount (fun k => m.currentMinute < k+60) _ := h.ring.sum
  rw [hwindow,hsplit,windowOf]
  rw [Nat.add_eq_left,amount_eq_zero_iff]
  constructor
  · intro hall
    by_cases hr : rate = 0
    · exact .inl hr
    · refine .inr fun c hc hin => ?_
      by_contra hout
      exact hr (hall _ (List.mem_map.2 ⟨c,hc,rfl⟩) ⟨hin,hout⟩)
  · rintro (hr | hall) x hx ⟨hin,hout⟩
    · obtain ⟨c,hc,rfl⟩ := List.mem_map.1 hx
      exact hr
    · obtain ⟨c,hc,rfl⟩ := List.mem_map.1 hx
      exact absurd (hall c hc hin) hout

theorem Metered.creditsTodayAt_eq (h : Metered rate day calls m) (hnow : m.day ≤ t.day) :
    m.creditsTodayAt t = dayOf rate calls t := by
  rw [CreditMeter.creditsTodayAt,dayOf]
  by_cases hd : t.day = m.day
  · rw [if_pos hd,h.today,hd]
  · rw [if_neg hd]
    refine (amount_eq_zero fun x hx => ?_).symm
    obtain ⟨c,hc,rfl⟩ := List.mem_map.1 hx
    have hle := (h.bound c hc).2
    show c.time.day ≠ t.day
    omega

/-- The day is exact while it is the day of the last billed call. -/
theorem Metered.day_iff (h : Metered rate day calls m) :
    m.snapshot.creditsToday = m.creditsTodayAt t ↔
      rate = 0 ∨ ∀ c ∈ (billed calls).getLast?, c.time.day = t.day := by
  show m.creditsToday = (if t.day = m.day then m.creditsToday else 0) ↔ _
  by_cases hd : t.day = m.day
  · rw [if_pos hd]
    refine iff_of_true rfl (.inr fun c hc => ?_)
    rw [hd,(h.last c hc).2]
  · rw [if_neg hd,h.today,amount_eq_zero_iff]
    constructor
    · intro hall
      by_cases hr : rate = 0
      · exact .inl hr
      · refine .inr fun c hc => ?_
        -- the last billed call would count on its own day
        have hmem : (c.time.day,rate) ∈ creditLog rate Moment.day calls :=
          List.mem_map.2 ⟨c,List.mem_of_getLast? hc,rfl⟩
        exact absurd (hall _ hmem (h.last c hc).2.symm) hr
    · rintro (hr | hall) x hx hday
      · obtain ⟨c,hc,rfl⟩ := List.mem_map.1 hx
        exact hr
      · cases hlast : (billed calls).getLast? with
        | none =>
          rw [creditLog,List.getLast?_eq_none_iff.1 hlast] at hx
          exact absurd hx List.not_mem_nil
        | some c =>
          have := hall c hlast
          rw [(h.last c hlast).2] at hd
          exact absurd this.symm hd

end Metered

/-- The last billed call is of the day of `t`, and what was in the window then still is. -/
def StillCurrent (calls : List RpcCall) (t : Moment) : Prop :=
  ∀ last ∈ (billed calls).getLast?, last.time.day = t.day ∧
    ∀ c ∈ billed calls, last.time.minute < c.time.minute+60 → t.minute < c.time.minute+60

/-- The windows are exact when calls cost nothing, or the last billed call was recent enough. -/
theorem windows_exact_iff (rate : Nat) (day : Int) (calls : List RpcCall) (t : Moment)
    (horder : (calls.map (·.time)++[t]).Pairwise (· ≤ ·)) (hday : ∀ c ∈ calls, day ≤ c.time.day)
    (ht : day ≤ t.day) :
    ((calls.foldl CreditMeter.record (.new rate day)).snapshot.windowCredits = windowOf rate calls t ∧
      (calls.foldl CreditMeter.record (.new rate day)).snapshot.creditsToday =
        (calls.foldl CreditMeter.record (.new rate day)).creditsTodayAt t ∧
      (calls.foldl CreditMeter.record (.new rate day)).creditsTodayAt t = dayOf rate calls t) ↔
      rate = 0 ∨ StillCurrent calls t := by
  obtain ⟨hcalls,-,hlater⟩ := List.pairwise_append.1 horder
  have hle : ∀ c ∈ calls, c.time ≤ t := fun c hc =>
    hlater c.time (List.mem_map.2 ⟨c,hc,rfl⟩) t List.mem_cons_self
  have h := Metered.of_calls rate hday (List.pairwise_map.1 hcalls)
  obtain ⟨hminute,hd⟩ := h.reached ht hle
  rw [h.window_iff hminute,h.day_iff,h.creditsTodayAt_eq hd]
  constructor
  · rintro ⟨hw,hd,-⟩
    by_cases hr : rate = 0
    · exact .inl hr
    · refine .inr fun last hlast => ⟨hd.resolve_left hr last hlast,fun c hc hin => ?_⟩
      rw [← (h.last last hlast).1] at hin
      exact hw.resolve_left hr c hc hin
  · rintro (hr | hcurrent)
    · exact ⟨.inl hr,.inl hr,rfl⟩
    · refine ⟨.inr fun c hc hin => ?_,.inr fun last hlast => (hcurrent last hlast).1,rfl⟩
      cases hlast : (billed calls).getLast? with
      | none => exact absurd hc (by simp [List.getLast?_eq_none_iff.1 hlast])
      | some last =>
        rw [(h.last last hlast).1] at hin
        exact (hcurrent last hlast).2 c hc hin

/-- Two calls, and one more an hour and a half later that brings the ring around; a failed call rolls
nothing. -/
def steadyCalls : List RpcCall :=
  [⟨⟨0,0⟩,"eth_blockNumber",true⟩,⟨⟨59,0⟩,"eth_call",true⟩,⟨⟨5400,0⟩,"eth_call",true⟩,
    ⟨⟨5500,1⟩,"eth_call",false⟩,⟨⟨5600,1⟩,"eth_call",true⟩]

theorem windows_exact_steady :
    StillCurrent steadyCalls ⟨8000,1⟩ ∧
      (steadyCalls.foldl CreditMeter.record (.new 10 0)).snapshot.windowCredits = 20 ∧
      (steadyCalls.foldl CreditMeter.record (.new 10 0)).snapshot.creditsToday = 10 := by
  have hcurrent : StillCurrent steadyCalls ⟨8000,1⟩ := by
    intro last hlast
    obtain rfl : ⟨⟨5600,1⟩,"eth_call",true⟩ = last := by simpa [billed,steadyCalls] using hlast
    decide
  obtain ⟨hwindow,htoday,hday⟩ := (windows_exact_iff 10 0 steadyCalls ⟨8000,1⟩ (by decide) (by decide)
    (by decide)).2 (.inr hcurrent)
  refine ⟨hcurrent,hwindow.trans ?_,htoday.trans (hday.trans ?_)⟩
  · decide
  · decide

def oneCall : List RpcCall := [⟨⟨0,0⟩,"eth_call",true⟩]

def nextDay : Moment := ⟨90000,1⟩

/-- Read the next day, the ring and the day still have the call. -/
theorem idle_windows_stale :
    (oneCall.map RpcCall.time++[nextDay]).Pairwise (· ≤ ·) ∧
      (oneCall.foldl CreditMeter.record (.new 10 0)).snapshot.windowCredits = 10 ∧
      windowOf 10 oneCall nextDay = 0 ∧
      (oneCall.foldl CreditMeter.record (.new 10 0)).snapshot.creditsToday = 10 ∧
      (oneCall.foldl CreditMeter.record (.new 10 0)).creditsTodayAt nextDay = 0 := by
  decide

end GumEngine.Rpc
