import GumEngine.Net.RoundTrip
import GumEngine.Text.Lowercase

/-!
# The address of a webhook

`validate_url` of `webhook.rs`. How a text is parsed to a URL is a parameter; its host is printed as a
URL prints it, and read again by the standard library.
-/

namespace GumEngine
open Net Text

inductive Host
  | domain (name : String)
  | ip (addr : IpAddr)
deriving DecidableEq, Repr

/-- A parsed URL, as far as it is looked at. -/
structure Url where
  scheme : String
  username : String
  password : Option String
  host : Option Host
  port : Option Nat

structure WebhookConfig where
  allowPrivateHosts : Bool
  hostAllowlist : List String

/-- `RAILWAY_PRIVATE_DOMAIN` and `HOSTNAME`. -/
structure OwnNames where
  railwayPrivateDomain : Option String
  hostname : Option String

def Host.hostStr : Host → String
  | .domain name => name
  | .ip (.v4 x) => .ofList x.text
  | .ip (.v6 x) => .ofList ('[' :: x.text ++ [']'])

def Url.portOrKnownDefault (url : Url) : Option Nat :=
  url.port.or <|
    if url.scheme = "http" ∨ url.scheme = "ws" then some 80
    else if url.scheme = "https" ∨ url.scheme = "wss" then some 443
    else if url.scheme = "ftp" then some 21
    else none

def eqIgnoreAsciiCase (s t : String) : Bool :=
  s.toList.map Char.toLower = t.toList.map Char.toLower

/-- The host without its brackets, in small letters. -/
def Host.name (u : CaseData) (h : Host) : String :=
  u.toLowercase (.ofList ((h.hostStr.toList.dropWhile (· = '[')).rdropWhile (· = ']')))

def OwnNames.any (names : OwnNames) (host : String) : Bool :=
  [names.railwayPrivateDomain,names.hostname].any fun n => n.any fun n => eqIgnoreAsciiCase n host

def WebhookConfig.allows (cfg : WebhookConfig) (host : String) : Bool :=
  cfg.hostAllowlist = [] ∨ cfg.hostAllowlist.any fun h => eqIgnoreAsciiCase h host

/-- A private host, by its address if it has one. -/
def isPrivateHost (host : String) : Option IpAddr → Bool
  | some (.v4 x) => x.isPrivate || x.isLoopback || x.isLinkLocal || x.isUnspecified
  | some (.v6 x) =>
    x.isLoopback || x.isUnspecified || (x.segments.headD 0 &&& 0xfe00) = 0xfc00 ||
      (x.segments.headD 0 &&& 0xffc0) = 0xfe80
  | none =>
    host = "localhost" || ".internal".toList.isSuffixOf host.toList ||
      ".local".toList.isSuffixOf host.toList

def validateUrl (u : CaseData) (parse : String → Except String Url) (names : OwnNames)
    (raw : String) (cfg : WebhookConfig) (ownPort : Nat) : Except String Unit := do
  let url ← (parse raw).mapError fun e => s!"webhook.url is not a valid URL: {e}"
  if ¬(url.scheme = "http" ∨ url.scheme = "https") then
    throw "webhook.url must use http or https"
  if url.username ≠ "" ∨ url.password.isSome then
    throw "webhook.url must not contain credentials"
  let some h := url.host | throw "webhook.url has no host"
  let host := h.name u
  if !cfg.allows host then
    throw s!"webhook host `{host}` is not in webhook.host_allowlist"
  let port := url.portOrKnownDefault.getD 80
  let ip := parseIpAddr host.toList
  let loopback := ip.any (fun ip => ip.isLoopback || ip.isUnspecified) || host = "localhost"
  if port = ownPort ∧ (loopback || names.any host) then
    throw "webhook.url points at gum-engine itself"
  if !cfg.allowPrivateHosts && isPrivateHost host ip then
    throw "webhook.url points at a private address and webhook.allow_private_hosts is false"

/-! ## Hosts that are addresses -/

section Address

variable {u : CaseData} {ip : IpAddr}

theorem addressChars_plain : ∀ c ∈ addressChars,
    c.toNat < 128 ∧ c.toLower = c ∧ c ≠ '[' ∧ c ≠ ']' := by
  simp [addressChars]

/-- Brackets around an address are taken off, and no more. -/
theorem trim_brackets {cs : List Char} (h : ∀ c ∈ cs, c ∈ addressChars) :
    (cs.dropWhile (· = '[')).rdropWhile (· = ']') = cs ∧
      (('[' :: cs ++ [']']).dropWhile (· = '[')).rdropWhile (· = ']') = cs := by
  have hopen : ∀ ds : List Char, (∀ d ∈ ds, d ≠ '[') → ds.dropWhile (· = '[') = ds := by
    intro ds hds
    cases ds with
    | nil => rfl
    | cons d ds => exact List.dropWhile_cons_of_neg (by simpa using hds d List.mem_cons_self)
  have hclose : cs.rdropWhile (· = ']') = cs :=
    List.rdropWhile_eq_self_iff.2 fun hne => by
      simpa using (addressChars_plain _ (h _ (List.getLast_mem hne))).2.2.2
  have hcs : ∀ c ∈ cs, c ≠ '[' := fun c hc => (addressChars_plain c (h c hc)).2.2.1
  refine ⟨by rw [hopen cs hcs,hclose],?_⟩
  have hall : ∀ d ∈ cs++[']'], d ≠ '[' := by
    intro d hd
    obtain hd | hd := List.mem_append.1 hd
    · exact hcs d hd
    · rw [List.mem_singleton.1 hd]
      decide
  rw [List.cons_append,List.dropWhile_cons_of_pos (by simp),hopen _ hall,
    List.rdropWhile_concat_pos _ _ _ (by simp),hclose]

theorem name_ip : (Host.ip ip).name u = .ofList ip.text := by
  have hchars : ∀ c ∈ ip.text, c ∈ addressChars := fun c hc => text_subset hc
  have htrim : ((Host.ip ip).hostStr.toList.dropWhile (· = '[')).rdropWhile (· = ']') = ip.text := by
    cases ip with
    | v4 x =>
      rw [Host.hostStr,String.toList_ofList]
      exact (trim_brackets hchars).1
    | v6 x =>
      rw [Host.hostStr,String.toList_ofList]
      exact (trim_brackets hchars).2
  rw [Host.name,htrim]
  refine toLowercase_self fun c hc => ?_
  rw [String.toList_ofList] at hc
  obtain ⟨hascii,hlower,-⟩ := addressChars_plain c (hchars c hc)
  exact ⟨hascii,hlower⟩

theorem parse_name : parseIpAddr ((Host.ip ip).name u).toList = some ip := by
  rw [name_ip,String.toList_ofList,parseIpAddr_text]

theorem name_ne_localhost : (Host.ip ip).name u ≠ "localhost" := by
  intro h
  have hparse : parseIpAddr "localhost".toList = some ip := h ▸ parse_name
  exact absurd hparse (by rw [show parseIpAddr "localhost".toList = none by decide +kernel]; simp)

/-- Loopback, unspecified, private, link-local or unique-local. -/
def isInternal : IpAddr → Bool
  | .v4 x => x.isLoopback || x.isUnspecified || x.isPrivate || x.isLinkLocal
  | .v6 x =>
    x.isLoopback || x.isUnspecified || (x.segments.headD 0 &&& 0xfe00) = 0xfc00 ||
      (x.segments.headD 0 &&& 0xffc0) = 0xfe80

theorem isPrivateHost_ip (host : String) : isPrivateHost host (some ip) = isInternal ip := by
  cases ip with
  | v4 x =>
    rw [isPrivateHost,isInternal]
    cases x.isPrivate <;> cases x.isLoopback <;> cases x.isLinkLocal <;>
      cases x.isUnspecified <;> rfl
  | v6 x => rfl

end Address

section Validate

variable {u : CaseData} {parse : String → Except String Url} {names : OwnNames} {raw : String}
  {cfg : WebhookConfig} {ownPort : Nat} {url : Url} {ip : IpAddr}

/-- What is looked at besides the address: credentials, the allowlist and the engine's names. -/
structure Passes (u : CaseData) (names : OwnNames) (cfg : WebhookConfig) (ownPort : Nat) (url : Url)
    (h : Host) : Prop where
  anonymous : url.username = "" ∧ url.password = none
  listed : cfg.allows (h.name u) = true
  unnamed : url.portOrKnownDefault.getD 80 = ownPort → names.any (h.name u) = false

/-- A URL whose host is an address is accepted as it is written, not as what it stands for. -/
theorem validateUrl_ip (hparse : parse raw = .ok url)
    (hscheme : url.scheme = "http" ∨ url.scheme = "https") (hhost : url.host = some (.ip ip)) :
    validateUrl u parse names raw cfg ownPort = .ok () ↔
      Passes u names cfg ownPort url (.ip ip) ∧
      (url.portOrKnownDefault.getD 80 = ownPort →
        ip.isLoopback = false ∧ ip.isUnspecified = false) ∧
      (cfg.allowPrivateHosts = false → isInternal ip = false) := by
  have hlocal : (Host.ip ip).name u ≠ "localhost" := name_ne_localhost
  rw [validateUrl,hparse]
  simp only [Except.mapError,Bind.bind,Except.bind,hscheme,not_true_eq_false,if_false,hhost,parse_name,
    isPrivateHost_ip,hlocal,decide_false,Bool.or_false,Option.any_some,throw,throwThe,
    MonadExceptOf.throw,pure,Except.pure]
  by_cases hcred : url.username ≠ "" ∨ url.password.isSome = true
  · rw [if_pos hcred]
    refine ⟨fun h => absurd h (by simp),fun h => ?_⟩
    obtain ⟨huser,hpass⟩ := h.1.anonymous
    simp [huser,hpass] at hcred
  rw [if_neg hcred]
  have hanon : url.username = "" ∧ url.password = none := by
    simpa [not_or] using hcred
  cases hlist : cfg.allows ((Host.ip ip).name u) with
  | false =>
    refine ⟨fun h => absurd h (by simp),fun h => ?_⟩
    rw [h.1.listed] at hlist
    cases hlist
  | true =>
    by_cases hself : url.portOrKnownDefault.getD 80 = ownPort ∧
        (ip.isLoopback || ip.isUnspecified || names.any ((Host.ip ip).name u)) = true
    · rw [if_pos hself]
      refine ⟨fun h => absurd h (by simp),fun h => ?_⟩
      obtain ⟨hloop,hunspec⟩ := h.2.1 hself.1
      simp [hloop,hunspec,h.1.unnamed hself.1] at hself
    · rw [if_neg hself]
      have hother : url.portOrKnownDefault.getD 80 = ownPort → (ip.isLoopback = false ∧
          ip.isUnspecified = false) ∧ names.any ((Host.ip ip).name u) = false := fun hport => by
        simpa [hport] using hself
      have hpasses : Passes u names cfg ownPort url (.ip ip) :=
        ⟨hanon,hlist,fun hport => (hother hport).2⟩
      by_cases hpriv : (!cfg.allowPrivateHosts && isInternal ip) = true
      · rw [if_pos hpriv]
        refine ⟨fun h => absurd h (by simp),fun h => ?_⟩
        obtain ⟨hno,hint⟩ : cfg.allowPrivateHosts = false ∧ isInternal ip = true := by
          simpa using hpriv
        rw [h.2.2 hno] at hint
        cases hint
      · rw [if_neg hpriv]
        refine ⟨fun _ => ⟨hpasses,fun hport => (hother hport).1,fun hno => ?_⟩,fun _ => rfl⟩
        simpa [hno] using hpriv

/-- An IPv4 address that the checks would refuse, written as an IPv4-mapped one. -/
def Disguised (cfg : WebhookConfig) (ownPort : Nat) (url : Url) : IpAddr → Prop
  | .v4 _ => False
  | .v6 x => ∃ y ∈ x.toIpv4Mapped,
      cfg.allowPrivateHosts = false ∧ isInternal (.v4 y) = true ∨
        url.portOrKnownDefault.getD 80 = ownPort ∧
          (y.isLoopback = true ∨ y.isUnspecified = true)

/-- What is accepted stands for no internal address unless these are allowed, and never for the
engine itself. -/
def Guarded (u : CaseData) (parse : String → Except String Url) (names : OwnNames) (raw : String)
    (cfg : WebhookConfig) (ownPort : Nat) (url : Url) (ip : IpAddr) : Prop :=
  validateUrl u parse names raw cfg ownPort = .ok () →
    (cfg.allowPrivateHosts = false → isInternal ip.toCanonical = false) ∧
    (url.portOrKnownDefault.getD 80 = ownPort →
      ip.toCanonical.isLoopback = false ∧ ip.toCanonical.isUnspecified = false)

/-- A mapped address is none of those that the checks know of. -/
theorem mapped_external {x : Ipv6Addr} {y : Ipv4Addr} (h : x.toIpv4Mapped = some y) :
    isInternal (.v6 x) = false ∧ x.isLoopback = false ∧ x.isUnspecified = false := by
  rw [Ipv6Addr.toIpv4Mapped] at h
  by_cases htake : x.segments.take 6 = [0,0,0,0,0,0xffff]
  · have hhead : x.segments.headD 0 = 0 := by
      have hfirst : (x.segments.take 6).head? = some 0 := by
        rw [htake]
        rfl
      rw [List.head?_take,if_neg (by omega)] at hfirst
      rw [List.headD_eq_head?_getD,hfirst]
      rfl
    have hloop : x.isLoopback = false := by
      refine decide_eq_false fun hx => ?_
      rw [hx] at htake
      exact absurd htake (by decide)
    have hunspec : x.isUnspecified = false := by
      refine decide_eq_false fun hx => ?_
      rw [hx] at htake
      exact absurd htake (by decide)
    refine ⟨?_,hloop,hunspec⟩
    rw [isInternal,hloop,hunspec,hhead]
    decide
  · rw [if_neg htake] at h
    cases h

/-- The promise is kept exactly where no refused IPv4 address comes as an IPv4-mapped one through
the other checks. -/
theorem guarded_iff (hparse : parse raw = .ok url)
    (hscheme : url.scheme = "http" ∨ url.scheme = "https") (hhost : url.host = some (.ip ip)) :
    Guarded u parse names raw cfg ownPort url ip ↔
      ¬(Passes u names cfg ownPort url (.ip ip) ∧ Disguised cfg ownPort url ip) := by
  rw [Guarded,validateUrl_ip hparse hscheme hhost]
  cases ip with
  | v4 x =>
    refine ⟨fun _ h => h.2,fun _ h => ⟨h.2.2,h.2.1⟩⟩
  | v6 x =>
    cases hmap : x.toIpv4Mapped with
    | none =>
      have hcanon : (IpAddr.v6 x).toCanonical = .v6 x := by
        rw [IpAddr.toCanonical,hmap]
      rw [hcanon]
      refine ⟨fun _ h => ?_,fun _ h => ⟨h.2.2,h.2.1⟩⟩
      obtain ⟨y,hy,-⟩ := h.2
      rw [hmap] at hy
      cases hy
    | some y =>
      have hcanon : (IpAddr.v6 x).toCanonical = .v4 y := by
        rw [IpAddr.toCanonical,hmap]
      obtain ⟨hext,hloop,hunspec⟩ := mapped_external hmap
      rw [hcanon]
      constructor
      · rintro hguard ⟨hpass,z,hz,hbad⟩
        obtain rfl : z = y := Option.some.inj (hz.symm.trans hmap)
        obtain ⟨hint,hself⟩ := hguard ⟨hpass,fun _ => ⟨hloop,hunspec⟩,fun _ => hext⟩
        obtain ⟨hno,hbad⟩ | ⟨hport,hbad | hbad⟩ := hbad
        · rw [hint hno] at hbad
          cases hbad
        · have hl : z.isLoopback = false := (hself hport).1
          rw [hl] at hbad
          cases hbad
        · have hu : z.isUnspecified = false := (hself hport).2
          rw [hu] at hbad
          cases hbad
      · intro hnot hok
        have hclear := fun hd => hnot ⟨hok.1,hd⟩
        refine ⟨fun hno => ?_,fun hport => ⟨?_,?_⟩⟩
        · exact Bool.eq_false_iff.2 fun hint => hclear ⟨y,hmap,.inl ⟨hno,hint⟩⟩
        · exact Bool.eq_false_iff.2 fun hl => hclear ⟨y,hmap,.inr ⟨hport,.inl hl⟩⟩
        · exact Bool.eq_false_iff.2 fun hl => hclear ⟨y,hmap,.inr ⟨hport,.inr hl⟩⟩

end Validate

namespace Sample

/-- What two texts are parsed to. -/
def parseUrl (raw : String) : Except String Url :=
  if raw = "http://0x7f.1:8080/hook" then
    .ok ⟨"http","",none,some (.ip (.v4 ⟨127,0,0,1⟩)),some 8080⟩
  else if raw = "http://[::ffff:127.0.0.1]:8080/v1/admin/chains/1/pause" then
    .ok ⟨"http","",none,some (.ip (.v6 ⟨[0,0,0,0,0,0xffff,0x7f00,1],rfl⟩)),some 8080⟩
  else .error "relative URL without a base"

def closedConfig : WebhookConfig := ⟨false,[]⟩

def noNames : OwnNames := ⟨none,none⟩

end Sample

theorem guarded_hex_loopback :
    Guarded .ascii Sample.parseUrl Sample.noNames "http://0x7f.1:8080/hook" Sample.closedConfig 8080
        ⟨"http","",none,some (.ip (.v4 ⟨127,0,0,1⟩)),some 8080⟩ (.v4 ⟨127,0,0,1⟩) ∧
      validateUrl .ascii Sample.parseUrl Sample.noNames "http://0x7f.1:8080/hook"
        Sample.closedConfig 8080 = .error "webhook.url points at gum-engine itself" :=
  ⟨(guarded_iff rfl (.inl rfl) rfl).2 fun h => h.2,by decide +kernel⟩

/-- The engine's own admin API, under an address it does not recognise as its own. -/
theorem mapped_loopback_accepted :
    validateUrl .ascii Sample.parseUrl Sample.noNames
        "http://[::ffff:127.0.0.1]:8080/v1/admin/chains/1/pause" Sample.closedConfig 8080 = .ok () ∧
      ¬Guarded .ascii Sample.parseUrl Sample.noNames
        "http://[::ffff:127.0.0.1]:8080/v1/admin/chains/1/pause" Sample.closedConfig 8080
        ⟨"http","",none,some (.ip (.v6 ⟨[0,0,0,0,0,0xffff,0x7f00,1],rfl⟩)),some 8080⟩
        (.v6 ⟨[0,0,0,0,0,0xffff,0x7f00,1],rfl⟩) := by
  have haccepted : validateUrl .ascii Sample.parseUrl Sample.noNames
      "http://[::ffff:127.0.0.1]:8080/v1/admin/chains/1/pause" Sample.closedConfig 8080 = .ok () := by
    decide +kernel
  refine ⟨haccepted,fun h => ?_⟩
  exact absurd ((h haccepted).1 rfl) (by decide +kernel)

end GumEngine
