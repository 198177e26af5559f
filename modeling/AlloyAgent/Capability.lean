import AlloyAgent.Binary64
import AlloyAgent.RustStr
import AlloyAgent.Wildcard

/-!
# Capabilities and their inheritance

`Capability`, `capabilityMatches`, `globMatches` and `validateCapabilityInheritance` follow
`capability.rs` arm by arm.

* `globMatches_iff`: the matcher decides a pattern of `Wildcard`;
* `subsumed_iff_coveredBy`: when a child can do no more than its parent;
* `inheritsOwn_iff`: when an agent may pass on all that it has.
-/

namespace AlloyAgent

open List

/-- A specific permission granted to an agent. -/
inductive Capability where
  | fileRead (pattern : String)
  | fileWrite (pattern : String)
  | netConnect (pattern : String)
  | netListen (port : UInt16)
  | toolInvoke (id : String)
  | toolAll
  | llmQuery (pattern : String)
  | llmMaxTokens (max : UInt64)
  | agentSpawn
  | agentMessage (pattern : String)
  | agentKill (pattern : String)
  | memoryRead (pattern : String)
  | memoryWrite (pattern : String)
  | shellExec (pattern : String)
  | envRead (pattern : String)
  | ofpDiscover
  | ofpConnect (pattern : String)
  | ofpAdvertise
  | econSpend (max : Binary64)
  | econEarn
  | econTransfer (pattern : String)
  deriving DecidableEq

open RustStr

/-- `glob_matches`: simple glob pattern matching supporting `*` as wildcard. -/
def globMatches (pattern value : String) : Bool :=
  if pattern = "*" then true
  else if pattern = value then true
  else
    let text := pattern.toList
    let v := value.toList
    -- `strip_prefix('*')`
    if text.head? = some '*' then text.tail.isSuffixOf v
    -- `strip_suffix('*')`
    else if text.getLast? = some '*' then text.dropLast.isPrefixOf v
    -- `find('*')`
    else if '*' ∈ text then
      let before := text.takeWhile (· ≠ '*')
      let after := (text.dropWhile (· ≠ '*')).tail
      before.isPrefixOf v && after.isSuffixOf v
        && decide (utf8Len before + utf8Len after ≤ utf8Len v)
    else false

/-- Checks whether a required capability matches a granted one. -/
def capabilityMatches (granted required : Capability) : Bool :=
  match granted, required with
  | .toolAll, .toolInvoke _ => true
  | .fileRead pattern, .fileRead path => globMatches pattern path
  | .fileWrite pattern, .fileWrite path => globMatches pattern path
  | .netConnect pattern, .netConnect host => globMatches pattern host
  | .toolInvoke grantedId, .toolInvoke requiredId =>
    decide (grantedId = requiredId) || decide (grantedId = "*")
  | .llmQuery pattern, .llmQuery model => globMatches pattern model
  | .agentMessage pattern, .agentMessage target => globMatches pattern target
  | .agentKill pattern, .agentKill target => globMatches pattern target
  | .memoryRead pattern, .memoryRead scope => globMatches pattern scope
  | .memoryWrite pattern, .memoryWrite scope => globMatches pattern scope
  | .shellExec pattern, .shellExec cmd => globMatches pattern cmd
  | .envRead pattern, .envRead var => globMatches pattern var
  | .ofpConnect pattern, .ofpConnect peer => globMatches pattern peer
  | .econTransfer pattern, .econTransfer target => globMatches pattern target
  | .agentSpawn, .agentSpawn => true
  | .ofpDiscover, .ofpDiscover => true
  | .ofpAdvertise, .ofpAdvertise => true
  | .econEarn, .econEarn => true
  | .netListen grantedPort, .netListen requiredPort => decide (grantedPort = requiredPort)
  | .llmMaxTokens grantedMax, .llmMaxTokens requiredMax => decide (requiredMax ≤ grantedMax)
  | .econSpend grantedMax, .econSpend requiredAmount => requiredAmount.le grantedMax
  | _, _ => false

/-- The refusal "Privilege escalation denied", with the capability it prints. -/
structure EscalationDenied where
  childCap : Capability
  deriving DecidableEq

/-- Child capabilities must be covered by those of the parent. -/
def validateCapabilityInheritance (parentCaps : List Capability) :
    List Capability → Except EscalationDenied Unit
  | [] => .ok ()
  | childCap :: childCaps =>
    if parentCaps.any fun parentCap => capabilityMatches parentCap childCap then
      validateCapabilityInheritance parentCaps childCaps
    else .error ⟨childCap⟩

variable {child : List Capability} {parent : List Capability}

theorem validateCapabilityInheritance_eq_ok :
    validateCapabilityInheritance parent child = .ok () ↔
      ∀ c ∈ child, ∃ p ∈ parent, capabilityMatches p c = true := by
  induction child with
  | nil => simp [validateCapabilityInheritance]
  | cons c child ih =>
    rw [validateCapabilityInheritance, forall_mem_cons, ← any_eq_true]
    split
    · rename_i hc
      rw [ih]
      exact (and_iff_right hc).symm
    · rename_i hc
      exact iff_of_false (by simp) fun h => hc h.1

/-! ## The matcher as a one-gap pattern -/

def globPattern (pattern : String) : OneStar Char := OneStar.parse '*' pattern.toList

theorem exists_middle_iff :
    (∃ m, v = b ++ m ++ e) ↔ b <+: v ∧ e <:+ v ∧ utf8Len b + utf8Len e ≤ utf8Len v := by
  refine ⟨?_, ?_⟩
  · rintro ⟨m, rfl⟩
    refine ⟨by simp, suffix_append _ _, ?_⟩
    simp only [utf8Len_append]
    omega
  · rintro ⟨⟨r, rfl⟩, he, hlen⟩
    rw [utf8Len_append, Nat.add_le_add_iff_left] at hlen
    -- the rest after `b` has room for `e`, so `e` ends it
    have hr : e <:+ r := by
      rcases suffix_or_suffix_of_suffix he (suffix_append b r) with h | ⟨t, rfl⟩
      · exact h
      · rw [utf8Len_append] at hlen
        have ht : t = [] := utf8Len_eq_zero.mp (by omega)
        simp [ht]
    obtain ⟨m, rfl⟩ := hr
    exact ⟨m, by rw [append_assoc]⟩

/-- **The hand-written matcher is membership in a one-gap pattern.** -/
theorem globMatches_iff (pattern value : String) :
    globMatches pattern value = true ↔ (globPattern pattern).Matches value.toList := by
  by_cases hstar : pattern = "*"
  · subst hstar
    exact iff_of_true (by simp [globMatches]) ⟨value.toList, by simp⟩
  by_cases hval : pattern = value
  · subst hval
    exact iff_of_true (by simp [globMatches]) (OneStar.matches_parse_self '*' pattern.toList)
  have hval' : value.toList ≠ pattern.toList := fun h => hval (String.toList_inj.mp h).symm
  unfold globMatches globPattern OneStar.parse
  simp only [if_neg hstar, if_neg hval]
  by_cases hhead : pattern.toList.head? = some '*'
  · simp only [if_pos hhead, isSuffixOf_iff_suffix, OneStar.Matches, nil_append]
    exact exists_congr fun m => eq_comm
  by_cases hlast : pattern.toList.getLast? = some '*'
  · simp only [if_neg hhead, if_pos hlast, isPrefixOf_iff_prefix, OneStar.Matches,
      append_nil]
    exact exists_congr fun m => eq_comm
  by_cases hmem : '*' ∈ pattern.toList
  · simp only [if_neg hhead, if_neg hlast, if_pos hmem, OneStar.Matches, exists_middle_iff,
      Bool.and_eq_true, decide_eq_true_eq, isSuffixOf_iff_suffix, isPrefixOf_iff_prefix,
      and_assoc]
  · simpa [hhead, hlast, hmem, OneStar.Matches] using hval'

/-! ## Grants with a pattern, and the others -/

/-- The kinds of capability whose grant is a glob pattern. -/
inductive GlobKind where
  | fileRead | fileWrite | netConnect | llmQuery | agentMessage | agentKill
  | memoryRead | memoryWrite | shellExec | envRead | ofpConnect | econTransfer
  deriving DecidableEq

def Capability.glob? : Capability → Option (GlobKind × String)
  | .fileRead w => some (.fileRead, w)
  | .fileWrite w => some (.fileWrite, w)
  | .netConnect w => some (.netConnect, w)
  | .llmQuery w => some (.llmQuery, w)
  | .agentMessage w => some (.agentMessage, w)
  | .agentKill w => some (.agentKill, w)
  | .memoryRead w => some (.memoryRead, w)
  | .memoryWrite w => some (.memoryWrite, w)
  | .shellExec w => some (.shellExec, w)
  | .envRead w => some (.envRead, w)
  | .ofpConnect w => some (.ofpConnect, w)
  | .econTransfer w => some (.econTransfer, w)
  | _ => none

def GlobKind.capability : GlobKind → String → Capability
  | .fileRead => .fileRead
  | .fileWrite => .fileWrite
  | .netConnect => .netConnect
  | .llmQuery => .llmQuery
  | .agentMessage => .agentMessage
  | .agentKill => .agentKill
  | .memoryRead => .memoryRead
  | .memoryWrite => .memoryWrite
  | .shellExec => .shellExec
  | .envRead => .envRead
  | .ofpConnect => .ofpConnect
  | .econTransfer => .econTransfer

variable {c : Capability} {k : GlobKind} {w : String}

theorem Capability.glob?_eq_some : c.glob? = some (k, w) ↔ c = k.capability w := by
  refine ⟨?_, ?_⟩
  · intro h
    cases c <;> simp only [Capability.glob?, Option.some.injEq, Prod.mk.injEq,
      reduceCtorEq] at h <;> obtain ⟨rfl, rfl⟩ := h <;> rfl
  · rintro rfl
    cases k <;> rfl

theorem capabilityMatches_glob_left :
    capabilityMatches (k.capability w) r = true ↔
      ∃ v, r = k.capability v ∧ globMatches w v = true := by
  have heq : capabilityMatches (k.capability w) r =
      r.glob?.any fun g => decide (g.1 = k) && globMatches w g.2 := by
    cases k <;> cases r <;> rfl
  simp [heq, Option.any_eq_true, Capability.glob?_eq_some]

theorem capabilityMatches_glob_right :
    capabilityMatches g (k.capability v) = true ↔
      ∃ w, g = k.capability w ∧ globMatches w v = true := by
  have heq : capabilityMatches g (k.capability v) =
      g.glob?.any fun p => decide (p.1 = k) && globMatches p.2 v := by
    cases k <;> cases g <;> rfl
  simp [heq, Option.any_eq_true, Capability.glob?_eq_some]

theorem capabilityMatches_capability (k : GlobKind) (w v : String) :
    capabilityMatches (k.capability w) (k.capability v) = globMatches w v := by
  cases k <;> rfl

theorem capabilityMatches_trans (hc : c.glob? = none) (hpc : capabilityMatches p c = true)
    (hcr : capabilityMatches c r = true) : capabilityMatches p r = true := by
  cases c with
  | netListen port =>
    cases p <;> simp only [capabilityMatches, Bool.false_eq_true] at hpc
    rw [of_decide_eq_true hpc]
    exact hcr
  | toolInvoke id =>
    -- granted by the same id, by the id `*`, or by `toolAll`
    cases r <;> simp only [capabilityMatches, Bool.false_eq_true] at hcr
    cases p <;> simp only [capabilityMatches, Bool.false_eq_true] at hpc ⊢
    simp only [Bool.or_eq_true, decide_eq_true_eq] at hpc hcr ⊢
    rcases hpc with rfl | rfl
    · exact hcr
    · exact Or.inr rfl
  | toolAll => cases p <;> simp only [capabilityMatches, Bool.false_eq_true] at hpc
  | llmMaxTokens max =>
    cases r <;> simp only [capabilityMatches, Bool.false_eq_true] at hcr
    cases p <;> simp only [capabilityMatches, Bool.false_eq_true] at hpc ⊢
    exact decide_eq_true (UInt64.le_trans (of_decide_eq_true hcr) (of_decide_eq_true hpc))
  | econSpend max =>
    cases r <;> simp only [capabilityMatches, Bool.false_eq_true] at hcr
    cases p <;> simp only [capabilityMatches, Bool.false_eq_true] at hpc ⊢
    exact Binary64.le_trans hcr hpc
  | agentSpawn | ofpDiscover | ofpAdvertise | econEarn =>
    cases p <;> simp only [capabilityMatches, Bool.false_eq_true] at hpc
    exact hcr
  | _ => simp [Capability.glob?] at hc

/-- The holder of `child` can do nothing that the holder of `parent` cannot. -/
def Subsumed (parent child : List Capability) : Prop :=
  ∀ r, (∃ c ∈ child, capabilityMatches c r = true) → ∃ p ∈ parent, capabilityMatches p r = true

def patternsOf (parent : List Capability) (k : GlobKind) : List (OneStar Char) :=
  parent.filterMap fun p => p.glob?.bind fun g => if g.1 = k then some (globPattern g.2) else none

/-- The parent's patterns cover the gap of the child's pattern, if it has one. -/
def CoveredBy (parent : List Capability) (c : Capability) : Prop :=
  ∀ k w b e, c.glob? = some (k, w) → globPattern w = .gap b e →
    OneStar.Covered (patternsOf parent k) b e

theorem mem_patternsOf :
    q ∈ patternsOf parent k ↔ ∃ w, k.capability w ∈ parent ∧ globPattern w = q := by
  simp only [patternsOf, mem_filterMap, Option.bind_eq_some_iff, Prod.exists]
  refine ⟨?_, ?_⟩
  · rintro ⟨p, hp, k', w, hglob, hq⟩
    split_ifs at hq with hk
    subst hk
    rw [Capability.glob?_eq_some] at hglob
    exact ⟨w, hglob ▸ hp, Option.some.inj hq⟩
  · rintro ⟨w, hp, rfl⟩
    exact ⟨_, hp, k, w, Capability.glob?_eq_some.mpr rfl, by simp⟩

theorem exists_capabilityMatches_iff :
    (∃ p ∈ parent, capabilityMatches p (k.capability v) = true) ↔
      ∃ q ∈ patternsOf parent k, q.Matches v.toList := by
  simp only [capabilityMatches_glob_right, mem_patternsOf, globMatches_iff]
  refine ⟨?_, ?_⟩
  · rintro ⟨p, hp, w, rfl, hm⟩
    exact ⟨_, ⟨w, hp, rfl⟩, hm⟩
  · rintro ⟨q, ⟨w, hp, rfl⟩, hm⟩
    exact ⟨_, hp, w, rfl, hm⟩

theorem coveredBy_capability :
    CoveredBy parent (k.capability w) ↔
      ∀ b e, globPattern w = .gap b e → OneStar.Covered (patternsOf parent k) b e := by
  refine ⟨fun h b e => h k w b e (Capability.glob?_eq_some.mpr rfl), fun h k' w' b e hglob => ?_⟩
  rw [Capability.glob?_eq_some.mpr rfl, Option.some.injEq, Prod.mk.injEq] at hglob
  obtain ⟨rfl, rfl⟩ := hglob
  exact h b e

theorem coveredBy_iff (hw : globPattern w = .gap b e) :
    CoveredBy parent (k.capability w) ↔
      ∀ v, globMatches w v = true → ∃ p ∈ parent, capabilityMatches p (k.capability v) = true := by
  have hcov : CoveredBy parent (k.capability w) ↔ OneStar.Covered (patternsOf parent k) b e := by
    rw [coveredBy_capability]
    refine ⟨fun h => h b e hw, fun h b' e' hw' => ?_⟩
    obtain ⟨rfl, rfl⟩ := OneStar.gap.inj (hw.symm.trans hw')
    exact h
  simp only [hcov, OneStar.covered_iff, exists_capabilityMatches_iff, globMatches_iff, hw,
    OneStar.Matches]
  refine ⟨?_, ?_⟩
  · rintro h v ⟨m, hm⟩
    rw [hm]
    exact h m
  · intro h m
    simpa using h (String.ofList (b ++ m ++ e)) ⟨m, by simp⟩

/-- What one capability grants is the parent's exactly if it is matched and its gap covered. -/
theorem grants_subsumed_iff (hc : ∃ p ∈ parent, capabilityMatches p c = true) :
    (∀ r, capabilityMatches c r = true → ∃ p ∈ parent, capabilityMatches p r = true) ↔
      CoveredBy parent c := by
  cases hglob : c.glob? with
  | none =>
    refine iff_of_true (fun r hr => ?_) (fun k w b e h => by simp [hglob] at h)
    obtain ⟨p, hp, hpc⟩ := hc
    exact ⟨p, hp, capabilityMatches_trans hglob hpc hr⟩
  | some g =>
    obtain ⟨k, w⟩ := g
    obtain rfl := Capability.glob?_eq_some.mp hglob
    have hgrants : (∀ r, capabilityMatches (k.capability w) r = true →
          ∃ p ∈ parent, capabilityMatches p r = true) ↔
        ∀ v, globMatches w v = true →
          ∃ p ∈ parent, capabilityMatches p (k.capability v) = true := by
      simp only [capabilityMatches_glob_left]
      exact ⟨fun h v hv => h _ ⟨v, rfl, hv⟩, by rintro h r ⟨v, rfl, hv⟩; exact h v hv⟩
    rw [hgrants]
    cases hw : globPattern w with
    | gap b e => exact (coveredBy_iff hw).symm
    | exact u =>
      -- a text without a gap matches only itself
      refine iff_of_true (fun v hv => ?_) (coveredBy_capability.mpr fun b e hgap => ?_)
      · rw [globMatches_iff, hw] at hv
        have hvw : v.toList = w.toList := hv.trans (OneStar.eq_of_parse_eq_exact hw).1
        rw [String.toList_inj.mp hvw]
        exact hc
      · cases hw.symm.trans hgap

theorem subsumed_iff_forall :
    Subsumed parent child ↔ ∀ c ∈ child, ∀ r, capabilityMatches c r = true →
      ∃ p ∈ parent, capabilityMatches p r = true :=
  ⟨fun h c hc r hr => h r ⟨c, hc, hr⟩, fun h r ⟨c, hc, hr⟩ => h c hc r hr⟩

/-- **Inheritance without escalation**, exactly if the parent covers the gap of each pattern. -/
theorem subsumed_iff_coveredBy (parent child : List Capability)
    (hok : validateCapabilityInheritance parent child = .ok ()) :
    Subsumed parent child ↔ ∀ c ∈ child, CoveredBy parent c := by
  rw [validateCapabilityInheritance_eq_ok] at hok
  rw [subsumed_iff_forall]
  exact forall₂_congr fun c hc => grants_subsumed_iff (hok c hc)

/-- A child that reads below one directory of its parent. -/
theorem dataReader_subsumed :
    validateCapabilityInheritance [.fileRead "/data/*"] [.fileRead "/data/logs/*"] = .ok () ∧
      Subsumed [.fileRead "/data/*"] [.fileRead "/data/logs/*"] := by
  refine ⟨by decide, (subsumed_iff_coveredBy _ _ (by decide)).mpr ?_⟩
  intro c hc
  rw [mem_singleton.mp hc]
  refine (coveredBy_capability (k := .fileRead)).mpr fun b e hw => ?_
  have hgap : globPattern "/data/logs/*" = .gap "/data/logs/".toList [] := by decide
  obtain ⟨rfl, rfl⟩ := OneStar.gap.inj (hgap.symm.trans hw)
  have hmem : OneStar.gap "/data/".toList [] ∈ patternsOf [.fileRead "/data/*"] .fileRead := by
    decide
  exact OneStar.Covered.alone hmem (by decide) (by decide)

/-- `/data/*/public/` is a directory with a star in its name; the child gets all of `/data/`. -/
theorem literalStar_escalates :
    validateCapabilityInheritance [.fileRead "/data/*/public/*"] [.fileRead "/data/*/public/x"]
        = .ok () ∧
      ¬ Subsumed [.fileRead "/data/*/public/*"] [.fileRead "/data/*/public/x"] := by
  refine ⟨by decide, fun h => ?_⟩
  obtain ⟨p, hp, hm⟩ :=
    h (.fileRead "/data/secret/public/x") ⟨_, mem_singleton_self _, by decide⟩
  rw [mem_singleton.mp hp] at hm
  exact absurd hm (by decide)

/-- With at most one `*` in each of the parent's patterns the check prevents
escalation. -/
theorem subsumed_of_single_star
    (hstar : ∀ k w, GlobKind.capability k w ∈ parent → w.toList.count '*' ≤ 1)
    (hok : validateCapabilityInheritance parent child = .ok ()) : Subsumed parent child := by
  rw [validateCapabilityInheritance_eq_ok] at hok
  refine subsumed_iff_forall.mpr fun c hc => (grants_subsumed_iff (hok c hc)).mpr ?_
  intro k w b e hglob hw
  obtain rfl := Capability.glob?_eq_some.mp hglob
  obtain ⟨q, hq, hm⟩ := exists_capabilityMatches_iff.mp (hok _ hc)
  obtain ⟨w', hw', hq'⟩ := mem_patternsOf.mp hq
  rw [OneStar.eq_of_parse_eq_gap hw] at hm
  cases q with
  | exact u =>
    -- the child's text has a star, this one has none
    obtain ⟨rfl, hno⟩ := OneStar.eq_of_parse_eq_exact hq'
    have hmem : '*' ∈ b ++ '*' :: e := by simp
    rw [hm] at hmem
    exact absurd hmem hno
  | gap b' e' =>
    have hcount := hstar k w' hw'
    rw [OneStar.eq_of_parse_eq_gap hq', count_append, count_cons_self] at hcount
    exact OneStar.Covered.of_matches_word hq (count_eq_zero.mp (by omega))
      (count_eq_zero.mp (by omega)) hm

/-! ## Passing on what one has -/

/-- A capability grants itself unless it is `toolAll` or an amount that is no number. -/
theorem capabilityMatches_self_iff (hnan : ∀ max, c = .econSpend max →
    max.isNaN = false) : capabilityMatches c c = true ↔ c ≠ .toolAll := by
  cases hglob : c.glob? with
  | some g =>
    obtain ⟨k, w⟩ := g
    obtain rfl := Capability.glob?_eq_some.mp hglob
    have hself : globMatches w w = true := by simp [globMatches]
    rw [capabilityMatches_capability]
    exact iff_of_true hself (by cases k <;> simp [GlobKind.capability])
  | none =>
    cases c with
    | econSpend max =>
      have hle : max.le max = true := Binary64.le_iff.mpr ⟨hnan max rfl, hnan max rfl, le_rfl⟩
      exact iff_of_true hle (by simp)
    | toolAll => simp [capabilityMatches]
    | toolInvoke id | netListen port | llmMaxTokens max => simp [capabilityMatches]
    | agentSpawn | ofpDiscover | ofpAdvertise | econEarn => simp [capabilityMatches]
    | _ => simp [Capability.glob?] at hglob

theorem not_capabilityMatches_toolAll (p : Capability) : capabilityMatches p .toolAll ≠ true := by
  cases p <;> simp [capabilityMatches]

/-- The holder of `caps` may pass on what it has, also if it holds more, and also less of it. -/
def InheritsOwn (caps : List Capability) : Prop :=
  validateCapabilityInheritance caps caps = .ok () ∧
    ∀ parent child, caps.Sublist parent → child.Sublist caps →
      validateCapabilityInheritance parent child = .ok ()

/-- **An agent may pass on what it has** exactly if that does not include `toolAll`. -/
theorem inheritsOwn_iff (caps : List Capability)
    (hnan : ∀ max, .econSpend max ∈ caps → max.isNaN = false) :
    InheritsOwn caps ↔ .toolAll ∉ caps := by
  refine ⟨fun h hall => ?_, fun h => ?_⟩
  · obtain ⟨p, -, hp⟩ := validateCapabilityInheritance_eq_ok.mp h.1 _ hall
    exact not_capabilityMatches_toolAll p hp
  · have hsub : ∀ parent child, caps.Sublist parent → child.Sublist caps →
        validateCapabilityInheritance parent child = .ok () := by
      intro parent child hparent hchild
      rw [validateCapabilityInheritance_eq_ok]
      intro c hc
      have hmem := hchild.subset hc
      refine ⟨c, hparent.subset hmem, (capabilityMatches_self_iff ?_).mpr ?_⟩
      · rintro max rfl
        exact hnan max hmem
      · rintro rfl
        exact h hmem
    exact ⟨hsub caps caps (.refl _) (.refl _), hsub⟩

/-- A reader that may also spend an amount. -/
theorem reader_inherits : InheritsOwn [.fileRead "/data/*", .econSpend ⟨0⟩] := by
  refine (inheritsOwn_iff _ ?_).mpr (by simp)
  intro max hmax
  have hzero : max = ⟨0⟩ := by simpa using hmax
  rw [hzero]
  decide

/-- The holder of `toolAll` may not pass it on. -/
theorem toolAll_not_inherited :
    validateCapabilityInheritance [.toolAll] [.toolAll] = .error ⟨.toolAll⟩ := by
  decide

end AlloyAgent
