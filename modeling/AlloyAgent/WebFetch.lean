import AlloyAgent.IpAddress
import AlloyAgent.RustStr
import AlloyAgent.Uri

/-!
# The check of a URL before it is fetched

`check_ssrf` refuses URLs that lead into the internal network.

* `checkSsrf_sound_iff`: the URLs of which the check sees the host;
* `readAlike_of_plain`: plain URLs are among them.
-/

namespace AlloyAgent.WebFetch

open RustStr

/-- What a host name, or an address as text, resolves to; `none` is an error. -/
abbrev Resolver := List Char → Option (List IpAddr)

/-- Check if an IP address is in a private range. -/
def isPrivateIp : IpAddr → Bool
  | .v4 a b _ _ =>
    a == 10#8 || (a == 172#8 && (16#8).ule b && b.ule 31#8) || (a == 192#8 && b == 168#8) ||
      (a == 169#8 && b == 254#8)
  | .v6 a _ _ _ _ _ _ _ => a &&& 0xfe00#16 == 0xfc00#16 || a &&& 0xffc0#16 == 0xfe80#16

/-- Extract host:port from a URL. -/
def extractHost (url : List Char) : List Char :=
  match secondPiece? "://".toList url with
  | some after =>
    let hostPort := after.takeWhile (· ≠ '/')
    if hostPort.contains ':' then hostPort
    else if "https".toList.isPrefixOf url then hostPort ++ ":443".toList
    else hostPort ++ ":80".toList
  | none => url

def blocked : List (List Char) :=
  ["localhost".toList, "metadata.google.internal".toList, "metadata.aws.internal".toList,
    "instance-data".toList, "169.254.169.254".toList]

def hostname (url : List Char) : List Char := (extractHost url).takeWhile (· ≠ ':')

def isHttp (url : List Char) : Bool :=
  "http://".toList.isPrefixOf url || "https://".toList.isPrefixOf url

def refused (ip : IpAddr) : Bool := ip.isLoopback || ip.isUnspecified || isPrivateIp ip

/-- Check if a URL targets an internal network resource. -/
def checkSsrf (resolve : Resolver) (url : List Char) : Except String Unit :=
  if !isHttp url then .error "Only http:// and https:// URLs are allowed"
  else
    let name := String.ofList (hostname url)
    if blocked.contains (hostname url) then
      .error s!"SSRF blocked: {name} is a restricted hostname"
    else
      match (resolve (hostname url)).bind (List.find? refused) with
      | some ip =>
        let shown := ip.display
        .error s!"SSRF blocked: {name} resolves to private IP {shown}"
      | none => .ok ()

/-! ## What the check is for -/

/-- Loopback, unspecified, private and link-local networks. -/
def internalNets4 : List (List (BitVec 8) × ℕ) :=
  [([127#8, 0#8, 0#8, 0#8], 8), ([0#8, 0#8, 0#8, 0#8], 32), ([10#8, 0#8, 0#8, 0#8], 8),
    ([172#8, 16#8, 0#8, 0#8], 12), ([192#8, 168#8, 0#8, 0#8], 16),
    ([169#8, 254#8, 0#8, 0#8], 16)]

/-- Loopback, unspecified, unique local and link-local networks. -/
def internalNets6 : List (List (BitVec 16) × ℕ) :=
  [([0#16, 0#16, 0#16, 0#16, 0#16, 0#16, 0#16, 1#16], 128),
    ([0#16, 0#16, 0#16, 0#16, 0#16, 0#16, 0#16, 0#16], 128),
    ([0xfc00#16, 0#16, 0#16, 0#16, 0#16, 0#16, 0#16, 0#16], 7),
    ([0xfe80#16, 0#16, 0#16, 0#16, 0#16, 0#16, 0#16, 0#16], 10)]

def Internal : IpAddr → Prop
  | .v4 a b c d => ∃ net ∈ internalNets4, IpAddr.InNet net.1 net.2 [a, b, c, d]
  | .v6 a b c d e f g h => ∃ net ∈ internalNets6, IpAddr.InNet net.1 net.2 [a, b, c, d, e, f, g, h]

/-- The host is no blocked name, and does not resolve to an internal address. -/
def Harmless (resolve : Resolver) (host : List Char) : Prop :=
  host ∉ blocked ∧ ∀ addrs, resolve host = some addrs → ∀ ip ∈ addrs, ¬ Internal ip

/-- The text between `://` and the first `:` or `/`. -/
def hostText (url : List Char) : List Char :=
  ((splitOnce? "://".toList url).map fun r =>
    r.2.takeWhile fun c => c ≠ '/' && c ≠ ':').getD []

/-- The text up to the first `:` or `/` is the host of the URI. -/
def ReadAlike (url : List Char) : Prop := Uri.host? url = some (hostText url)

theorem second_octet (b : BitVec 8) :
    (16#8).ule b = true ∧ b.ule 31#8 = true ↔ b &&& 0xf0#8 = 0x10#8 := by
  revert b
  decide

theorem internal_v4 (a b c d : BitVec 8) :
    Internal (.v4 a b c d) ↔ refused (.v4 a b c d) = true := by
  have hoctet (x : BitVec 8) : IpAddr.InNet [x, 0#8, 0#8, 0#8] 8 [a, b, c, d] ↔ a = x :=
    (IpAddr.inNet_add (n := 0)).trans (and_iff_left IpAddr.inNet_zero)
  have htwo (x y : BitVec 8) : IpAddr.InNet [x, y, 0#8, 0#8] 16 [a, b, c, d] ↔
      a = x ∧ b = y :=
    (IpAddr.inNet_add (n := 8)).trans <| and_congr_right fun _ =>
      (IpAddr.inNet_add (n := 0)).trans (and_iff_left IpAddr.inNet_zero)
  have hhalf : IpAddr.InNet [172#8, 16#8, 0#8, 0#8] 12 [a, b, c, d] ↔
      a = 172#8 ∧ (16#8).ule b = true ∧ b.ule 31#8 = true := by
    refine (IpAddr.inNet_add (n := 4)).trans (and_congr_right fun _ => ?_)
    rw [second_octet]
    exact IpAddr.inNet_mask (by decide) (by decide)
  have hfull : IpAddr.InNet [0#8, 0#8, 0#8, 0#8] 32 [a, b, c, d] ↔
      [a, b, c, d] = [0#8, 0#8, 0#8, 0#8] := IpAddr.inNet_full rfl
  simp [Internal, internalNets4, refused, isPrivateIp, IpAddr.isLoopback, IpAddr.isUnspecified,
    hoctet, htwo, hhalf, hfull, or_assoc, and_assoc]

theorem internal_v6 (a b c d e f g h : BitVec 16) :
    Internal (.v6 a b c d e f g h) ↔ refused (.v6 a b c d e f g h) = true := by
  have hfull (x : BitVec 16) : IpAddr.InNet [0#16, 0#16, 0#16, 0#16, 0#16, 0#16, 0#16, x] 128
      [a, b, c, d, e, f, g, h] ↔
      [a, b, c, d, e, f, g, h] = [0#16, 0#16, 0#16, 0#16, 0#16, 0#16, 0#16, x] :=
    IpAddr.inNet_full rfl
  have hlocal : IpAddr.InNet [0xfc00#16, 0#16, 0#16, 0#16, 0#16, 0#16, 0#16, 0#16] 7
      [a, b, c, d, e, f, g, h] ↔ a &&& 0xfe00#16 = 0xfc00#16 :=
    IpAddr.inNet_mask (by decide) (by decide)
  have hlink : IpAddr.InNet [0xfe80#16, 0#16, 0#16, 0#16, 0#16, 0#16, 0#16, 0#16] 10
      [a, b, c, d, e, f, g, h] ↔ a &&& 0xffc0#16 = 0xfe80#16 :=
    IpAddr.inNet_mask (by decide) (by decide)
  simp [Internal, internalNets6, refused, isPrivateIp, IpAddr.isLoopback, IpAddr.isUnspecified,
    hfull, hlocal, hlink, or_assoc]

theorem internal_iff (ip : IpAddr) : Internal ip ↔ refused ip = true := by
  cases ip with
  | v4 a b c d => exact internal_v4 a b c d
  | v6 a b c d e f g h => exact internal_v6 a b c d e f g h

/-! ## Two readings of a URL -/

variable {url : List Char}

theorem isHttp_cases (h : isHttp url = true) :
    ∃ scheme rest, (scheme = "http".toList ∨ scheme = "https".toList) ∧
      url = scheme ++ ':' :: '/' :: '/' :: rest := by
  rw [isHttp, Bool.or_eq_true, List.isPrefixOf_iff_prefix, List.isPrefixOf_iff_prefix] at h
  rcases h with ⟨rest, rfl⟩ | ⟨rest, rfl⟩
  · exact ⟨_, rest, .inl rfl, rfl⟩
  · exact ⟨_, rest, .inr rfl, rfl⟩

theorem takeWhile_slash_colon (s : List Char) :
    (s.takeWhile (· ≠ '/')).takeWhile (· ≠ ':') = s.takeWhile fun c => c ≠ '/' && c ≠ ':' := by
  rw [List.takeWhile_takeWhile]
  congr 1
  funext c
  simp [and_comm]

theorem hostname_eq (h : isHttp url = true) : hostname url = hostText url := by
  obtain ⟨scheme, rest, hscheme, rfl⟩ := isHttp_cases h
  have hsplit : splitOnce? "://".toList (scheme ++ ':' :: '/' :: '/' :: rest) =
      some (scheme, rest) := by
    rcases hscheme with rfl | rfl <;> rfl
  have hread : ((firstPiece "://".toList rest).takeWhile (· ≠ '/')).takeWhile (· ≠ ':') =
      rest.takeWhile fun c => c ≠ '/' && c ≠ ':' := by
    rw [takeWhile_slash_colon]
    exact takeWhile_firstPiece rfl _ rest
  simp only [hostname, hostText, extractHost, secondPiece?, hsplit, Option.map_some,
    Option.getD_some]
  rw [← hread]
  split_ifs
  · rfl
  · exact takeWhile_append_stop rfl
  · exact takeWhile_append_stop rfl

theorem checkSsrf_ok_iff (h : isHttp url = true) :
    checkSsrf resolve url = .ok () ↔ Harmless resolve (hostText url) := by
  rw [checkSsrf, hostname_eq h, h, Harmless]
  by_cases hblocked : hostText url ∈ blocked
  · simp [hblocked]
  · simp only [hblocked, not_false_eq_true, true_and]
    cases hresolve : resolve (hostText url) with
    | none => simp [hblocked]
    | some addrs =>
      simp only [internal_iff, Option.some.injEq, forall_eq', Option.bind_some]
      cases hfind : addrs.find? refused with
      | none =>
        rw [List.find?_eq_none] at hfind
        simpa [hblocked] using hfind
      | some ip =>
        have hip := List.find?_some hfind
        have hmem := List.mem_of_find?_eq_some hfind
        simp only [List.contains_eq_mem, hblocked]
        exact iff_of_false nofun fun hall => hall ip hmem hip

theorem host?_scheme (rest : List Char) (h : scheme = "http".toList ∨ scheme = "https".toList) :
    Uri.host? (scheme ++ ':' :: '/' :: '/' :: rest) =
      some (Uri.hostOf (rest.takeWhile fun c => !Uri.endsAuthority c)) := by
  have hne : scheme ≠ [] := by
    rcases h with rfl | rfl <;> decide
  have hplain : ∀ c ∈ scheme, c ≠ ':' ∧ Uri.endsAuthority c = false := by
    rcases h with rfl | rfl <;> simp [Uri.endsAuthority]
  rw [Uri.host?, Uri.authority?_scheme hne hplain, Option.map_some]

/-- **Plain URLs are read alike**: those without user information, brackets, and a query or fragment
right behind the host. -/
theorem readAlike_of_plain (hscheme : scheme = "http".toList ∨ scheme = "https".toList)
    (h : ∀ c ∈ rest.takeWhile (· ≠ '/'), c ≠ '@' ∧ c ≠ '?' ∧ c ≠ '#')
    (hbracket : rest.head? ≠ some '[') : ReadAlike (scheme ++ ':' :: '/' :: '/' :: rest) := by
  have hauthority : (rest.takeWhile fun c => !Uri.endsAuthority c) = rest.takeWhile (· ≠ '/') := by
    have hself := List.takeWhile_eq_self_iff.mpr fun c hc => decide_eq_true (h c hc).2
    rw [← hself, List.takeWhile_takeWhile]
    congr 1
    funext c
    simp [Uri.endsAuthority, Bool.and_left_comm, Bool.and_comm]
  have huser : Uri.afterUserinfo (rest.takeWhile (· ≠ '/')) = rest.takeWhile (· ≠ '/') :=
    List.rtakeWhile_eq_self_iff.mpr fun c hc => decide_eq_true (h c hc).1
  have hsplit : splitOnce? "://".toList (scheme ++ ':' :: '/' :: '/' :: rest) =
      some (scheme, rest) := by
    rcases hscheme with rfl | rfl <;> rfl
  rw [ReadAlike, host?_scheme rest hscheme, hauthority, Uri.hostOf, huser, hostText, hsplit,
    Option.map_some, Option.getD_some, ← takeWhile_slash_colon]
  split
  · rename_i literal hhead
    cases rest with
    | nil => cases hhead
    | cons c rest =>
      rw [List.takeWhile_cons] at hhead
      split at hhead
      · exact absurd (congrArg some (List.cons.inj hhead).1) hbracket
      · cases hhead
  · rfl

/-- Only this name resolves, to the local machine. -/
def loopbackAt (host : List Char) : Resolver := fun name =>
  if name = host then some [.v4 127#8 0#8 0#8 1#8] else none

theorem not_harmless (hresolve : resolve host = some [ip]) (hip : refused ip = true) :
    ¬ Harmless resolve host :=
  fun h => h.2 _ hresolve ip (List.mem_singleton_self _) ((internal_iff ip).mpr hip)

theorem harmless_loopbackAt (hname : name ∉ blocked) (hne : name ≠ host) :
    Harmless (loopbackAt host) name := by
  refine ⟨hname, fun addrs haddrs => ?_⟩
  rw [loopbackAt, if_neg hne] at haddrs
  cases haddrs

/-- **When the check is sound**: the text that it takes for the host is the host. -/
theorem checkSsrf_sound_iff (url : List Char) :
    (∀ resolve, checkSsrf resolve url = .ok () →
        ∀ host, Uri.host? url = some host → Harmless resolve host) ↔
      isHttp url = false ∨ hostText url ∈ blocked ∨ ReadAlike url := by
  cases h : isHttp url with
  | false =>
    refine iff_of_true (fun resolve hok => ?_) (.inl rfl)
    simp [checkSsrf, h] at hok
  | true =>
    obtain ⟨host, hhost⟩ : ∃ host, Uri.host? url = some host := by
      obtain ⟨scheme, rest, hscheme, rfl⟩ := isHttp_cases h
      exact ⟨_, host?_scheme rest hscheme⟩
    simp only [checkSsrf_ok_iff h, ReadAlike, hhost, Option.some.injEq, forall_eq']
    refine ⟨fun hsound => ?_, ?_⟩
    · by_contra hcon
      simp only [Bool.true_eq_false, false_or, not_or] at hcon
      -- the host is the local machine, and the text the check looks at resolves to nothing
      have hpass := harmless_loopbackAt hcon.1 fun heq => hcon.2 heq.symm
      exact not_harmless (if_pos rfl) (by decide) (hsound _ hpass)
    · rintro (hfalse | hblocked | heq) resolve hharmless
      · cases hfalse
      · exact absurd hblocked hharmless.1
      · exact heq ▸ hharmless

/-! ## URLs that are read differently -/

/-- Only the addresses of the local machine resolve. -/
def localOnly : Resolver := fun name =>
  if name = "127.0.0.1".toList then some [.v4 127#8 0#8 0#8 1#8]
  else if name = "::1".toList then some [.v6 0#16 0#16 0#16 0#16 0#16 0#16 0#16 1#16]
  else none

/-- The URL passes the check, and its host is not harmless. -/
def Passes (resolve : Resolver) (url : List Char) : Prop :=
  checkSsrf resolve url = .ok () ∧ ∃ host, Uri.host? url = some host ∧ ¬ Harmless resolve host

/-- The URL passes, and its host is the local machine. -/
theorem other_readings_pass :
    Passes localOnly "http://me@127.0.0.1/admin".toList ∧
      Passes localOnly "http://[::1]/admin".toList ∧
      Passes localOnly "http://127.0.0.1?admin".toList := by
  have hv4 : ¬ Harmless localOnly "127.0.0.1".toList := not_harmless rfl (by decide)
  have hv6 : ¬ Harmless localOnly "::1".toList := not_harmless rfl (by decide)
  exact ⟨⟨by decide, _, rfl, hv4⟩, ⟨by decide, _, rfl, hv6⟩, by decide, _, rfl, hv4⟩

end AlloyAgent.WebFetch
