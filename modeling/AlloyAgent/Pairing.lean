import AlloyAgent.HashTable
import AlloyAgent.Transition

/-!
# Device pairing

A pairing token is a random string that `create_pairing_request` puts into a map.

* `Effect`: what one operation can do, from which `Inv` follows;
* `pairing_exclusive`: a token admits one device, if no other call interferes.
-/

namespace AlloyAgent.Pairing

open List Option Transition

structure PairedDevice where
  deviceId : String
  displayName : String
  platform : String
  pairedAt : ℕ
  lastSeen : ℕ
  pushToken : Option String
  deriving DecidableEq, Repr

structure PairingRequest where
  token : String
  createdAt : ℕ
  expiresAt : ℕ
  deriving DecidableEq, Repr

structure PairingConfig where
  enabled : Bool
  maxDevices : ℕ
  tokenExpirySecs : ℕ

/-- Device pairing manager. -/
structure PairingManager where
  config : PairingConfig
  pending : Table String PairingRequest
  devices : Table String PairedDevice

/-- Maximum concurrent pairing requests. -/
def maxPendingRequests : ℕ := 5

/-- `new`, and `load_devices` of the devices found in the database. -/
def boot (config : PairingConfig) (stored : List PairedDevice) : PairingManager :=
  ⟨config, ∅, Table.ofPairs (stored.map fun d => (d.deviceId, d))⟩

inductive Pc where
  /-- `complete_pairing`: search the map for the token -/
  | find (token : String) (device : PairedDevice)
  /-- `complete_pairing`: compare the clock with the expiry time -/
  | expiry (token key : String) (request : PairingRequest) (device : PairedDevice)
  /-- `complete_pairing`: remove an expired token -/
  | removeExpired (token key : String)
  /-- `complete_pairing`: compare the number of devices with the maximum -/
  | count (token key : String) (device : PairedDevice)
  /-- `complete_pairing`: remove the used token -/
  | remove (token key : String) (device : PairedDevice)
  /-- `complete_pairing`: store the device -/
  | store (token : String) (device : PairedDevice)
  | completed (token : String) (result : Except String PairedDevice)
  /-- `create_pairing_request`: the first check of the limit -/
  | createCheck
  /-- `create_pairing_request`: `clean_expired` -/
  | createClean
  /-- `create_pairing_request`: the second check of the limit -/
  | createRecheck
  /-- `create_pairing_request`: generate a token and insert it -/
  | createInsert
  | created (result : Except String PairingRequest)
  | removeDevice (deviceId : String)
  | removedDevice (result : Except String Unit)

/-- The iteration order of the map, the clock, and the next random token. -/
structure Env where
  order : IterOrder (String × PairingRequest)
  now : ℕ
  token : String

def findToken (order : IterOrder (String × PairingRequest)) (pending : Table String PairingRequest)
    (token : String) : Option (String × PairingRequest) :=
  (order.arrange pending.pairs).find? fun e => e.2.token = token

def advance (env : Env) (m : PairingManager) : Pc → Option (PairingManager × Pc)
  | .find token device =>
    match findToken env.order m.pending token with
    | some (key, request) => some (m, .expiry token key request device)
    | none => some (m, .completed token (.error "Invalid or expired pairing token"))
  | .expiry token key request device =>
    if request.expiresAt < env.now then some (m, .removeExpired token key)
    else some (m, .count token key device)
  | .removeExpired token key =>
    some ({ m with pending := m.pending.erase key },
      .completed token (.error "Pairing token has expired"))
  | .count token key device =>
    if m.config.maxDevices ≤ m.devices.size then
      some (m, .completed token (.error
        s!"Maximum paired devices ({m.config.maxDevices}) reached. Remove a device first."))
    else some (m, .remove token key device)
  | .remove token key device =>
    some ({ m with pending := m.pending.erase key }, .store token device)
  | .store token device =>
    some ({ m with devices := m.devices.insert device.deviceId device },
      .completed token (.ok device))
  | .completed _ _ => none
  | .createCheck =>
    if !m.config.enabled then some (m, .created (.error "Device pairing is disabled"))
    else if maxPendingRequests ≤ m.pending.size then some (m, .createClean)
    else some (m, .createInsert)
  | .createClean =>
    some ({ m with pending := m.pending.retain fun _ r => env.now < r.expiresAt }, .createRecheck)
  | .createRecheck =>
    if maxPendingRequests ≤ m.pending.size then
      some (m, .created (.error "Too many pending pairing requests. Try again later."))
    else some (m, .createInsert)
  | .createInsert =>
    let request : PairingRequest := ⟨env.token, env.now, env.now + m.config.tokenExpirySecs⟩
    some ({ m with pending := m.pending.insert env.token request }, .created (.ok request))
  | .created _ => none
  | .removeDevice deviceId =>
    match m.devices.lookup deviceId with
    | some _ => some ({ m with devices := m.devices.erase deviceId }, .removedDevice (.ok ()))
    | none => some (m, .removedDevice (.error s!"Device '{deviceId}' not found"))
  | .removedDevice _ => none

inductive Call where
  | createPairingRequest
  | completePairing (token : String) (device : PairedDevice)
  | removeDevice (deviceId : String)

def Call.entry : Call → Pc
  | .createPairingRequest => .createCheck
  | .completePairing token device => .find token device
  | .removeDevice deviceId => .removeDevice deviceId

def Pc.issues (env : Env) : Pc → List String
  | .createInsert => [env.token]
  | _ => []

/-- The manager, the calls made on it, and the tokens issued so far. -/
structure Concurrent where
  manager : PairingManager
  calls : List Pc
  issued : List String

inductive Event where
  | call (c : Call)
  | advance (i : ℕ) (env : Env)

def stepPairing (s : Concurrent) : Event → Option Concurrent
  | .call c => some { s with calls := s.calls ++ [c.entry] }
  | .advance i env =>
    s.calls[i]?.bind fun pc =>
      (advance env s.manager pc).map fun r => ⟨r.1, s.calls.set i r.2, s.issued ++ pc.issues env⟩

def start (config : PairingConfig) (stored : List PairedDevice) : Concurrent :=
  ⟨boot config stored, [], []⟩

/-! ## The account of a token -/

/-- The call has returned `Ok` for this token. -/
def Pc.admits (token : String) : Pc → Bool
  | .completed t (.ok _) => t = token
  | _ => false

/-- Number of `complete_pairing` calls that returned `Ok` for this token. -/
def admissions (s : Concurrent) (token : String) : ℕ := (s.calls.filter (·.admits token)).length

def Pc.spent (token : String) : Pc → ℕ
  | .store t _ => if t = token then 1 else 0
  | .completed t (.ok _) => if t = token then 1 else 0
  | _ => 0

def held (m : PairingManager) (token : String) : ℕ := (m.pending.lookup token).elim 0 fun _ => 1

/-- A used token is there, a device has room, and a token that is issued is new. -/
def Pc.Exclusive (s : Concurrent) (env : Env) : Pc → Prop
  | .remove _ key _ => (s.manager.pending.lookup key).isSome
  | .store _ device =>
    (s.manager.devices.lookup device.deviceId).isSome ∨
      s.manager.devices.size < s.manager.config.maxDevices
  | .createInsert => env.token ∉ s.issued
  | _ => True

/-- The event interferes with no other call. -/
def Exclusive (s : Concurrent) : Event → Prop
  | .call _ => True
  | .advance i env => ∀ pc, s.calls[i]? = some pc → pc.Exclusive s env

/-- The key a call holds is the token it was given. -/
def Pc.Keyed : Pc → Prop
  | .expiry token key _ _ | .removeExpired token key | .count token key _ |
    .remove token key _ => key = token
  | _ => True

def Keyed (m : PairingManager) : Prop := ∀ k r, m.pending.lookup k = some r → r.token = k

variable {m : PairingManager}

theorem Keyed.findToken (h : Keyed m)
    (hfind : findToken order m.pending token = some (key, request)) : key = token := by
  have hmem : (key, request) ∈ m.pending.pairs :=
    (order.mem_arrange).mp (mem_of_find?_eq_some hfind)
  have htoken : request.token = token := by simpa using find?_some hfind
  rw [← h key request (Table.mem_pairs.mp hmem), htoken]

/-- What one operation can do: check something, or change one of the maps. -/
inductive Effect (env : Env) (m : PairingManager) : Pc → PairingManager × Pc → Prop where
  | check {pc pc' : Pc} (hkeyed : Keyed m → pc.Keyed → pc'.Keyed)
      (hspent : ∀ token, pc'.spent token = 0) : Effect env m pc (m, pc')
  | removeExpired (token key : String) (e : String) :
      Effect env m (.removeExpired token key)
        ({ m with pending := m.pending.erase key }, .completed token (.error e))
  | remove (token key : String) (device : PairedDevice) :
      Effect env m (.remove token key device)
        ({ m with pending := m.pending.erase key }, .store token device)
  | store (token : String) (device : PairedDevice) :
      Effect env m (.store token device)
        ({ m with devices := m.devices.insert device.deviceId device },
          .completed token (.ok device))
  | clean (p : String → PairingRequest → Bool) :
      Effect env m .createClean ({ m with pending := m.pending.retain p }, .createRecheck)
  | insert (request : PairingRequest) (htoken : request.token = env.token) :
      Effect env m .createInsert
        ({ m with pending := m.pending.insert env.token request }, .created (.ok request))
  | removeDevice (deviceId : String) :
      Effect env m (.removeDevice deviceId)
        ({ m with devices := m.devices.erase deviceId }, .removedDevice (.ok ()))

variable {env : Env} {pc : Pc}

theorem effect_of_advance (h : advance env m pc = some r) : Effect env m pc r := by
  cases pc with
  | find token device =>
    rw [advance] at h
    split at h <;> cases h
    · rename_i key request hfind
      exact .check (fun hm _ => hm.findToken hfind) fun _ => rfl
    · exact .check (fun _ _ => trivial) fun _ => rfl
  | expiry token key request device =>
    rw [advance] at h
    split at h <;> obtain rfl := some.inj h <;> exact .check (fun _ hpc => hpc) fun _ => rfl
  | count token key device =>
    rw [advance] at h
    split at h <;> cases h
    · exact .check (fun _ _ => trivial) fun _ => rfl
    · exact .check (fun _ hpc => hpc) fun _ => rfl
  | createCheck | createRecheck =>
    rw [advance] at h
    split_ifs at h <;> obtain rfl := some.inj h <;>
      exact .check (fun _ _ => trivial) fun _ => rfl
  | removeExpired token key =>
    cases h
    exact .removeExpired token key _
  | remove token key device =>
    cases h
    exact .remove token key device
  | store token device =>
    cases h
    exact .store token device
  | createClean =>
    cases h
    exact .clean _
  | createInsert =>
    cases h
    exact .insert _ rfl
  | removeDevice deviceId =>
    rw [advance] at h
    split at h <;> cases h
    · exact .removeDevice deviceId
    · exact .check (fun _ _ => trivial) fun _ => rfl
  | completed token result | created result | removedDevice result => cases h

variable {m' : PairingManager} {pc' : Pc}

theorem Keyed.effect (h : Keyed m) (hpc : pc.Keyed) (heffect : Effect env m pc (m', pc')) :
    Keyed m' ∧ pc'.Keyed := by
  cases heffect with
  | check hkeyed hspent => exact ⟨h, hkeyed h hpc⟩
  | removeExpired token key e | remove token key device =>
    exact ⟨fun k r hr => h k r (Table.lookup_of_lookup_erase hr), trivial⟩
  | store token device | removeDevice deviceId => exact ⟨h, trivial⟩
  | clean p =>
    refine ⟨fun k r hr => h k r ?_, trivial⟩
    rw [Table.lookup_retain] at hr
    exact (filter_eq_some_iff.mp hr).1
  | insert request htoken =>
    exact ⟨Table.forall_lookup_insert htoken h, trivial⟩

theorem held_erase_le (m : PairingManager) (key token : String) :
    held { m with pending := m.pending.erase key } token ≤ held m token := by
  by_cases hk : token = key
  · subst hk
    simp [held]
  · simp [held, AList.lookup_erase_ne hk]

variable {s : Concurrent}

/-- One operation moves a token from the map to the call, or loses it. -/
theorem account_effect (token : String) (hpc : pc.Keyed) (hex : pc.Exclusive s env)
    (heffect : Effect env s.manager pc (m', pc')) :
    held m' token + pc'.spent token ≤
      held s.manager token + pc.spent token + (pc.issues env).count token := by
  cases heffect with
  | check hkeyed hspent =>
    rw [hspent]
    omega
  | removeExpired t key e =>
    exact (held_erase_le s.manager key token).trans (Nat.le_add_right _ _)
  | remove t key device =>
    -- the call takes over the token that it has found in the map
    obtain rfl : key = t := hpc
    obtain ⟨r, hr⟩ := isSome_iff_exists.mp hex
    by_cases hk : key = token
    · subst hk
      simp [held, Pc.spent, hr]
    · have hle := held_erase_le s.manager key token
      simp only [Pc.spent, if_neg hk]
      omega
  | store t device | removeDevice deviceId => exact Nat.le_add_right _ _
  | clean p =>
    simp only [held, Table.lookup_retain, Pc.spent, Pc.issues]
    cases s.manager.pending.lookup token with
    | none => simp
    | some r =>
      simp only [filter_some]
      split_ifs <;> simp
  | insert request htoken =>
    by_cases hk : token = env.token
    · subst hk
      simp [held, Pc.spent, Pc.issues]
    · simp [held, Pc.spent, AList.lookup_insert_ne hk]

theorem devices_effect (hex : pc.Exclusive s env) (heffect : Effect env s.manager pc (m', pc'))
    (hroom : s.manager.devices.size ≤ s.manager.config.maxDevices) :
    m'.devices.size ≤ m'.config.maxDevices := by
  cases heffect with
  | check hkeyed hspent => exact hroom
  | removeExpired t key e | remove t key device | clean p | insert request htoken => exact hroom
  | store t device =>
    rw [Table.size_insert]
    split_ifs with hsome
    · exact hroom
    · exact hex.resolve_left hsome
  | removeDevice deviceId => exact (Table.size_erase_le _ _).trans hroom

def spentBy (s : Concurrent) (token : String) : ℕ := (s.calls.map (Pc.spent token)).sum

/-- A token is in the map or spent at most as often as it was issued, at most once. -/
structure Inv (s : Concurrent) : Prop where
  keyed : Keyed s.manager
  calls : ∀ pc ∈ s.calls, pc.Keyed
  account : ∀ token, held s.manager token + spentBy s token ≤ s.issued.count token
  nodup : s.issued.Nodup
  room : s.manager.devices.size ≤ s.manager.config.maxDevices

theorem Inv.step (s : Concurrent) (e : Event) (s' : Concurrent) (h : Inv s) (hex : Exclusive s e)
    (hstep : stepPairing s e = some s') : Inv s' := by
  cases e with
  | call c =>
    cases hstep
    refine ⟨h.keyed, fun pc hpc => ?_, fun token => ?_, h.nodup, h.room⟩
    · rcases mem_append.mp hpc with hold | hnew
      · exact h.calls pc hold
      · obtain rfl := mem_singleton.mp hnew
        cases c <;> trivial
    · have hentry : c.entry.spent token = 0 := by cases c <;> rfl
      simpa [spentBy, hentry] using h.account token
  | advance i env =>
    obtain ⟨pc, hi, hmap⟩ := bind_eq_some_iff.mp hstep
    obtain ⟨⟨m', pc'⟩, hadv, rfl⟩ := map_eq_some_iff.mp hmap
    have hkeyed := h.calls pc (mem_of_getElem? hi)
    have hpc := hex pc hi
    have heffect := effect_of_advance hadv
    obtain ⟨hm', hpc'⟩ := h.keyed.effect hkeyed heffect
    refine ⟨hm', fun q hq => ?_, fun token => ?_, ?_, devices_effect hpc heffect h.room⟩
    · rcases mem_or_eq_of_mem_set hq with hold | rfl
      · exact h.calls q hold
      · exact hpc'
    · have hold := h.account token
      have hstep := account_effect token hkeyed hpc heffect
      have hset := sum_map_set (Pc.spent token) hi pc'
      simp only [spentBy, count_append] at hold ⊢
      omega
    · refine nodup_append'.mpr ⟨h.nodup, ?_, ?_⟩
      · cases pc <;> simp [Pc.issues]
      · cases pc with
        | createInsert =>
          intro token hold hnew
          obtain rfl := mem_singleton.mp hnew
          exact hpc hold
        | _ => exact disjoint_nil_right _

theorem admissions_le_spentBy (s : Concurrent) (token : String) :
    admissions s token ≤ spentBy s token := by
  rw [admissions, spentBy]
  induction s.calls with
  | nil => exact Nat.zero_le _
  | cons pc calls ih =>
    rw [map_cons, sum_cons, filter_cons]
    split_ifs with hadmits
    · have hone : pc.spent token = 1 := by
        cases pc with
        | completed t result =>
          cases result with
          | ok device => simpa [Pc.spent, Pc.admits] using hadmits
          | error e => cases hadmits
        | _ => cases hadmits
      rw [length_cons, hone]
      omega
    · omega

/-- **Pairing is exclusive**, in every run in which no operation interferes with another call. -/
theorem pairing_exclusive (config : PairingConfig) (stored : List PairedDevice)
    (hstored : (boot config stored).devices.size ≤ config.maxDevices) (es : List Event)
    (s : Concurrent) (hex : Guarded stepPairing Exclusive (start config stored) es)
    (hrun : run stepPairing (start config stored) es = some s) :
    (∀ token, admissions s token ≤ 1) ∧ s.manager.devices.size ≤ s.manager.config.maxDevices := by
  have hstart : Inv (start config stored) :=
    ⟨nofun, nofun, fun _ => le_rfl, nodup_nil, hstored⟩
  have h := run_guarded Inv.step es hstart hex hrun
  refine ⟨fun token => ?_, h.room⟩
  calc admissions s token ≤ spentBy s token := admissions_le_spentBy s token
    _ ≤ held s.manager token + spentBy s token := Nat.le_add_left _ _
    _ ≤ s.issued.count token := h.account token
    _ ≤ 1 := nodup_iff_count_le_one.mp h.nodup token

def oneDevice : PairingConfig := ⟨true, 1, 300⟩

def phone : PairedDevice := ⟨"phone", "Phone", "android", 0, 0, none⟩

def tablet : PairedDevice := ⟨"tablet", "Tablet", "ios", 0, 0, none⟩

def Env.at (now : ℕ) : Env := ⟨.stored _, now, "token"⟩

def oneAfterTheOther : List Event :=
  [.call .createPairingRequest, .advance 0 (.at 0), .advance 0 (.at 0),
    .call (.completePairing "token" phone), .advance 1 (.at 1), .advance 1 (.at 1),
    .advance 1 (.at 1), .advance 1 (.at 1), .advance 1 (.at 1),
    .call (.completePairing "token" tablet), .advance 2 (.at 2)]

theorem exclusive_advance (hpc : s.calls[i]? = some pc) (h : pc.Exclusive s env) :
    Exclusive s (.advance i env) :=
  fun _ hpc' => some.inj (hpc.symm.trans hpc') ▸ h

theorem oneAfterTheOther_exclusive :
    ∃ s, run stepPairing (start oneDevice []) oneAfterTheOther = some s ∧
      admissions s "token" = 1 ∧ (∀ token, admissions s token ≤ 1) ∧
      s.manager.devices.size ≤ 1 := by
  have hex : Guarded stepPairing Exclusive (start oneDevice []) oneAfterTheOther := by
    refine .cons trivial rfl (.cons (exclusive_advance rfl trivial) rfl ?_)
    refine .cons (exclusive_advance rfl not_mem_nil) rfl (.cons trivial rfl ?_)
    refine .cons (exclusive_advance rfl trivial) rfl (.cons (exclusive_advance rfl trivial) rfl ?_)
    refine .cons (exclusive_advance rfl trivial) rfl (.cons (exclusive_advance rfl rfl) rfl ?_)
    refine .cons (exclusive_advance rfl (.inr Nat.one_pos)) rfl (.cons trivial rfl ?_)
    exact .cons (exclusive_advance rfl trivial) rfl trivial
  obtain ⟨honce, hroom⟩ := pairing_exclusive oneDevice [] (by decide) _ _ hex rfl
  exact ⟨_, rfl, rfl, honce, hroom⟩

def atTheSameTime : List Event :=
  [.call .createPairingRequest, .advance 0 (.at 0), .advance 0 (.at 0),
    .call (.completePairing "token" phone), .call (.completePairing "token" tablet),
    .advance 1 (.at 1), .advance 2 (.at 1), .advance 1 (.at 1), .advance 2 (.at 1),
    .advance 1 (.at 1), .advance 2 (.at 1), .advance 1 (.at 1), .advance 2 (.at 1),
    .advance 1 (.at 1), .advance 2 (.at 1)]

/-- One token admits two devices, where one device is the maximum. -/
theorem token_used_twice :
    ∃ s, run stepPairing (start oneDevice []) atTheSameTime = some s ∧
      admissions s "token" = 2 ∧ s.manager.devices.size = 2 ∧ s.manager.config.maxDevices = 1 :=
  ⟨_, rfl, rfl, rfl, rfl⟩

end AlloyAgent.Pairing
