import AlloyAgent.ChannelBridge
import AlloyAgent.Transition

/-!
# The rate limit of a sender

Messages of any channels and senders come in one after another. In no minute do more of one
sender's get past the rate limit than the overrides of the channel allow.

* `Within`: what one message preserves; `arrive_window`: what holds of them all.
-/

namespace AlloyAgent.Channels

open List Transition

def ChannelRateLimiter.bucket (limiter : ChannelRateLimiter) (channelType platformId : String) :
    List ℕ :=
  (limiter.buckets.lookup s!"{channelType}:{platformId}").getD []

/-- The times that count at a time. -/
def recent (now t : ℕ) : Bool := now - t < 60 * 10 ^ 9

/-- The limiter, the time, and when messages of a sender have got through. -/
structure Gate where
  limiter : ChannelRateLimiter
  clock : ℕ
  passed : List ℕ

/-- One message; time does not run backwards. -/
def arrive (overrides : String → Option ChannelOverrides) (channel user : String) (s : Gate) :
    ChannelMessage × ℕ → Option Gate
  | (message, now) =>
    if now < s.clock then none
    else match rateLimit (overrides (channelTypeStr message.channel)) message now s.limiter with
      | (limiter, .error _) => some ⟨limiter, now, s.passed⟩
      | (limiter, .ok ()) =>
        if channelTypeStr message.channel = channel ∧ message.sender.platformId = user then
          some ⟨limiter, now, s.passed ++ [now]⟩
        else some ⟨limiter, now, s.passed⟩

variable {limiter limiter' : ChannelRateLimiter} {now later max : ℕ} {channel user : String}

theorem countP_recent_filter (h : now ≤ later) (ts : List ℕ) :
    (ts.filter (recent now)).countP (recent later) = ts.countP (recent later) := by
  rw [countP_filter]
  refine countP_congr fun t _ => ?_
  simp only [recent, Bool.and_eq_true, decide_eq_true_eq]
  omega

theorem check_ok (hmax : 0 < max) (h : limiter.check channel user max now = (limiter', .ok ())) :
    (limiter.bucket channel user).countP (recent now) < max ∧
      limiter'.bucket channel user =
        (limiter.bucket channel user).filter (recent now) ++ [now] := by
  rw [ChannelRateLimiter.check, if_neg hmax.ne'] at h
  dsimp only at h
  split at h
  · cases h
  · rename_i hroom
    cases h
    rw [countP_eq_length_filter, ChannelRateLimiter.bucket, ChannelRateLimiter.bucket,
      Table.lookup_insert_eq, if_pos rfl]
    exact ⟨not_le.mp hroom, rfl⟩

/-- No check forgets a time that still counts, of its sender or another one. -/
theorem countP_bucket_le (h : now ≤ later) (ov : Option ChannelOverrides)
    (message : ChannelMessage) (channel user : String) :
    (limiter.bucket channel user).countP (recent later) ≤
      ((rateLimit ov message now limiter).1.bucket channel user).countP (recent later) := by
  have hinsert (key : String) (ts : List ℕ)
      (hts : ((limiter.buckets.lookup key).getD []).filter (recent now) <+ ts) :
      (limiter.bucket channel user).countP (recent later) ≤
        (ChannelRateLimiter.bucket ⟨limiter.buckets.insert key ts⟩ channel user).countP
          (recent later) := by
    rw [ChannelRateLimiter.bucket, ChannelRateLimiter.bucket, Table.lookup_insert_eq]
    split
    · rename_i hkey
      rw [hkey, ← countP_recent_filter h]
      exact hts.countP_le
    · exact le_rfl
  fun_cases rateLimit ov message now limiter
  · exact le_rfl
  · rw [ChannelRateLimiter.check]
    split
    · exact le_rfl
    · dsimp only
      split
      · exact hinsert _ _ (.refl _)
      · exact hinsert _ _ (sublist_append_left ..)
  · exact le_rfl

/-- The times that still count are in the bucket, and no minute has too many. -/
structure Within (limit : ℕ) (channel user : String) (s : Gate) : Prop where
  kept : ∀ later ≥ s.clock,
    s.passed.countP (recent later) ≤ (s.limiter.bucket channel user).countP (recent later)
  window : ∀ start, s.passed.countP (fun t => start ≤ t && t < start + 60 * 10 ^ 9) ≤ limit

/-- A message that gets through finds room in every minute that it is in. -/
theorem Within.concat {limit : ℕ} {s : Gate} (h : Within limit channel user s)
    (hclock : s.clock ≤ now) (hlimit : 0 < limit)
    (hcheck : s.limiter.check channel user limit now = (limiter', .ok ())) :
    Within limit channel user ⟨limiter', now, s.passed ++ [now]⟩ := by
  obtain ⟨hroom, hbucket⟩ := check_ok hlimit hcheck
  refine ⟨fun later hlater => ?_, fun start => ?_⟩
  · rw [hbucket, countP_append, countP_append, countP_recent_filter hlater]
    exact Nat.add_le_add_right (h.kept later (hclock.trans hlater)) _
  · rw [countP_append, countP_singleton]
    split
    · rename_i hnow
      have hrecent : s.passed.countP (fun t => start ≤ t && t < start + 60 * 10 ^ 9) ≤
          s.passed.countP (recent now) := by
        refine countP_mono_left fun t _ ht => ?_
        simp only [recent, Bool.and_eq_true, decide_eq_true_eq] at ht hnow ⊢
        omega
      exact (Nat.add_le_add_right (hrecent.trans (h.kept now hclock)) 1).trans hroom
    · exact h.window start

variable {overrides : String → Option ChannelOverrides} {ov : ChannelOverrides}

theorem within_arrive (hov : overrides channel = some ov) (hlimit : 0 < ov.rateLimitPerUser)
    (s : Gate) (e : ChannelMessage × ℕ) (s' : Gate)
    (h : Within ov.rateLimitPerUser channel user s)
    (hs' : arrive overrides channel user s e = some s') :
    Within ov.rateLimitPerUser channel user s' := by
  obtain ⟨message, now⟩ := e
  rw [arrive] at hs'
  split at hs'
  · cases hs'
  rename_i hclock
  rw [not_lt] at hclock
  have hkept : ∀ later ≥ now, s.passed.countP (recent later) ≤ _ := fun later hlater =>
    (h.kept later (hclock.trans hlater)).trans (countP_bucket_le hlater
      (overrides (channelTypeStr message.channel)) message channel user)
  split at hs'
  · rename_i hlimited
    cases hs'
    exact ⟨by rwa [hlimited] at hkept, h.window⟩
  · rename_i hlimited
    split_ifs at hs' with hsender
    · cases hs'
      obtain ⟨rfl, rfl⟩ := hsender
      rw [hov, rateLimit, if_pos hlimit] at hlimited
      exact h.concat hclock hlimit hlimited
    · cases hs'
      exact ⟨by rwa [hlimited] at hkept, h.window⟩

/-- **No sender exceeds the rate limit** in any minute. -/
theorem arrive_window (hov : overrides channel = some ov) (hlimit : 0 < ov.rateLimitPerUser)
    (messages : List (ChannelMessage × ℕ)) {s : Gate}
    (hrun : run (arrive overrides channel user) ⟨⟨∅⟩, 0, []⟩ messages = some s) (start : ℕ) :
    s.passed.countP (fun t => start ≤ t && t < start + 60 * 10 ^ 9) ≤ ov.rateLimitPerUser :=
  (run_invariant (within_arrive hov hlimit) messages
    ⟨fun _ _ => Nat.zero_le _, fun _ => Nat.zero_le _⟩ hrun).window start

def oncePerMinute (_ : String) : Option ChannelOverrides := some ⟨.respond, .all, 1, false, none⟩

def photos : List (ChannelMessage × ℕ) :=
  [0, 1, 60 * 10 ^ 9].map fun now => (⟨.telegram, ⟨"u", none⟩, .image, false, none⟩, now)

/-- The second of two messages at once is refused, the one a minute later is not. -/
theorem photos_window :
    ∃ s, run (arrive oncePerMinute "telegram" "u") ⟨⟨∅⟩, 0, []⟩ photos = some s ∧
      s.passed = [0, 60 * 10 ^ 9] ∧
      ∀ start, s.passed.countP (fun t => start ≤ t && t < start + 60 * 10 ^ 9) ≤ 1 :=
  ⟨_, rfl, rfl, @arrive_window "telegram" "u" oncePerMinute _ rfl Nat.one_pos photos _ rfl⟩

end AlloyAgent.Channels
