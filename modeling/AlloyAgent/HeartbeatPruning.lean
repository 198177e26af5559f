import AlloyAgent.SessionRepair
import AlloyAgent.ToolPairing

/-!
# Pruning heartbeat turns

Before a session is saved, `prune_heartbeat_turns` removes the assistant messages that say that
there is nothing to say, and with each of them the user message in front of it, taken to be what
triggered it.

* `keepsPairs_iff`: the histories in which uses and results stay together.
-/

namespace AlloyAgent.HeartbeatPruning

open List Message SessionRepair

/-- The messages that are kept, with their indices in the history. -/
def survivors (ms : List Message) (keepRecent : ℕ) : List (Message × ℕ) :=
  ms.zipIdx.filter fun p => p.2 ∉ heartbeatIndices ms (ms.length - keepRecent)

/-- The message at `j` is the next one of the user after that at `i`. -/
structure NextUser (ms : List Message) (i j : ℕ) : Prop where
  lt : i < j
  user : ms[j]?.map Message.role = some .user
  first : ∀ k, i < k → k < j → ms[k]?.map Message.role ≠ some .user

/-- A tool use of the assistant message at `i` and its result in the next user message, at `j`. -/
def Pair (ms : List Message) (x : String) (i j : ℕ) : Prop :=
  NextUser ms i j ∧ (∃ a, ms[i]? = some a ∧ a.role = .assistant ∧ x ∈ a.toolUseIds) ∧
    ∃ u, ms[j]? = some u ∧ x ∈ u.toolResultIds

structure PairedTurns (ms : List Message) : Prop where
  use_answered : ∀ i a x, ms[i]? = some a → a.role = .assistant → x ∈ a.toolUseIds →
    ∃ j, Pair ms x i j
  result_answers : ∀ j u x, ms[j]? = some u → u.role = .user → x ∈ u.toolResultIds →
    ∃ i, Pair ms x i j

/-- The pairs are kept together, and the recent messages stay. -/
structure KeepsPairs (ms : List Message) (keepRecent : ℕ) : Prop where
  uses : ∀ a i x, (a, i) ∈ survivors ms keepRecent → a.role = .assistant → x ∈ a.toolUseIds →
    ∃ u j, (u, j) ∈ survivors ms keepRecent ∧ Pair ms x i j
  results : ∀ u j x, (u, j) ∈ survivors ms keepRecent → u.role = .user → x ∈ u.toolResultIds →
    ∃ a i, (a, i) ∈ survivors ms keepRecent ∧ Pair ms x i j
  recent : ms.drop (ms.length - keepRecent) <:+ pruneHeartbeatTurns ms keepRecent

/-- No message without a reply, but for the recent ones, follows tool results. -/
def NoReplyAfterResults (ms : List Message) (keepRecent : ℕ) : Prop :=
  ∀ i u n, i + 1 < ms.length - keepRecent → ms[i]? = some u → u.role = .user →
    ms[i + 1]? = some n → isNoReply n = true → u.toolResultIds = []

variable {ms : List Message} {keepRecent i j : ℕ} {x : String}

/-! ## What is removed -/

theorem pruneHeartbeatTurns_eq (ms : List Message) (keepRecent : ℕ) :
    pruneHeartbeatTurns ms keepRecent = (survivors ms keepRecent).map Prod.fst := by
  rw [pruneHeartbeatTurns]
  split
  · have hnone : heartbeatIndices ms (ms.length - keepRecent) = [] := by
      rw [Nat.sub_eq_zero_of_le ‹_›]
      rfl
    rw [survivors, hnone]
    simp
  · rfl

variable {m : Message}

theorem mem_survivors :
    (m, i) ∈ survivors ms keepRecent ↔
      ms[i]? = some m ∧ i ∉ heartbeatIndices ms (ms.length - keepRecent) := by
  rw [survivors, mem_filter, mem_zipIdx_iff_getElem?, decide_eq_true_iff]

theorem mem_heartbeatIndices :
    i ∈ heartbeatIndices ms pruneEnd ↔
      (i < pruneEnd ∧ ∃ n, ms[i]? = some n ∧ isNoReply n = true) ∨
      i + 1 < pruneEnd ∧ ∃ u n, ms[i]? = some u ∧ u.role = .user ∧ ms[i + 1]? = some n ∧
        isNoReply n = true := by
  have hreply : ∀ k : ℕ, (ms[k]?.map isNoReply).getD false = true ↔
      ∃ n, ms[k]? = some n ∧ isNoReply n = true := by
    intro k
    cases ms[k]? <;> simp
  simp only [heartbeatIndices, mem_flatMap, mem_range, hreply]
  refine ⟨?_, ?_⟩
  · rintro ⟨k, hk, hi⟩
    split_ifs at hi with hn hprev
    · simp only [mem_cons, not_mem_nil, or_false] at hi
      rcases hi with rfl | rfl
      · exact .inl ⟨hk, hn⟩
      · obtain ⟨u, hu, huser⟩ := Option.map_eq_some_iff.mp hprev.2
        obtain ⟨n, hn, hreply⟩ := hn
        refine .inr ⟨by omega, u, n, hu, huser, ?_, hreply⟩
        rwa [Nat.sub_add_cancel hprev.1]
    · obtain rfl := mem_singleton.mp hi
      exact .inl ⟨hk, hn⟩
    · cases hi
  · rintro (⟨hi, hn⟩ | ⟨hi, u, n, hu, huser, hn⟩)
    · refine ⟨i, hi, ?_⟩
      rw [if_pos hn]
      split <;> simp
    · refine ⟨i + 1, hi, ?_⟩
      rw [if_pos ⟨n, hn⟩, if_pos ⟨Nat.succ_pos i, by simp [hu, huser]⟩]
      simp

theorem lt_of_mem_heartbeatIndices (h : i ∈ heartbeatIndices ms pruneEnd) : i < pruneEnd := by
  rcases mem_heartbeatIndices.mp h with h | h <;> omega

theorem toolUseIds_of_isNoReply (h : isNoReply m = true) :
    m.role = .assistant ∧ m.toolUseIds = [] := by
  rw [isNoReply, Bool.and_eq_true, decide_eq_true_iff] at h
  refine ⟨h.1, ?_⟩
  obtain ⟨role, content⟩ := m
  replace h := h.2
  dsimp only at h
  split at h
  case h_1 => rfl
  case h_2 => rfl
  case h_3 => cases h

theorem drop_suffix_prune (ms : List Message) (keepRecent : ℕ) :
    ms.drop (ms.length - keepRecent) <:+ pruneHeartbeatTurns ms keepRecent := by
  have hsplit : ms.zipIdx = (ms.take (ms.length - keepRecent)).zipIdx ++
      (ms.drop (ms.length - keepRecent)).zipIdx (ms.length - keepRecent) := by
    conv_lhs => rw [← take_append_drop (ms.length - keepRecent) ms, zipIdx_append]
    rw [Nat.zero_add, length_take_of_le (Nat.sub_le _ _)]
  have hkept : ∀ p ∈ (ms.drop (ms.length - keepRecent)).zipIdx (ms.length - keepRecent),
      p.2 ∉ heartbeatIndices ms (ms.length - keepRecent) := fun p hp hmem =>
    absurd (lt_of_mem_heartbeatIndices hmem) (Nat.not_lt.mpr (le_snd_of_mem_zipIdx hp))
  rw [pruneHeartbeatTurns_eq, survivors, hsplit, filter_append, map_append,
    filter_eq_self.mpr fun p hp => decide_eq_true (hkept p hp), zipIdx_map_fst]
  exact suffix_append _ _

theorem NextUser.unique (h : NextUser ms i j) (h' : NextUser ms i j') : j = j' := by
  rcases Nat.lt_trichotomy j j' with hlt | heq | hlt
  · exact absurd h.user (h'.first j h.lt hlt)
  · exact heq
  · exact absurd h'.user (h.first j' h'.lt hlt)

theorem use_survives (ha : ms[i]? = some a) (hrole : a.role = .assistant) (hx : x ∈ a.toolUseIds) :
    (a, i) ∈ survivors ms keepRecent := by
  refine mem_survivors.mpr ⟨ha, fun hmem => ?_⟩
  rcases mem_heartbeatIndices.mp hmem with ⟨-, n, hn, hreply⟩ | ⟨-, u, -, hu, huser, -⟩
  · cases ha.symm.trans hn
    rw [(toolUseIds_of_isNoReply hreply).2] at hx
    cases hx
  · cases ha.symm.trans hu
    rw [hrole] at huser
    cases huser

/-- **When pruning keeps tool pairs together.** -/
theorem keepsPairs_iff (ms : List Message) (keepRecent : ℕ) (hpaired : PairedTurns ms) :
    KeepsPairs ms keepRecent ↔ NoReplyAfterResults ms keepRecent := by
  refine ⟨fun h i u n hi hu huser hn hreply => ?_, fun h => ⟨?_, ?_, drop_suffix_prune ms _⟩⟩
  · -- a result in front of such a message is lost, but its tool use is kept
    refine eq_nil_iff_forall_not_mem.mpr fun x hx => ?_
    obtain ⟨k, hpair⟩ := hpaired.result_answers i u x hu huser hx
    obtain ⟨hnext, ⟨a, ha, harole, hxa⟩, -⟩ := hpair
    obtain ⟨u', j, hj, hnext', -⟩ := h.uses a k x (use_survives ha harole hxa) harole hxa
    obtain rfl := hnext.unique hnext'
    exact (mem_survivors.mp hj).2
      (mem_heartbeatIndices.mpr (.inr ⟨hi, u, n, hu, huser, hn, hreply⟩))
  · intro a i x ha hrole hx
    obtain ⟨j, hpair⟩ := hpaired.use_answered i a x (mem_survivors.mp ha).1 hrole hx
    obtain ⟨hnext, -, u, hu, hxu⟩ := id hpair
    have huser : u.role = .user := by simpa [hu] using hnext.user
    refine ⟨u, j, mem_survivors.mpr ⟨hu, fun hmem => ?_⟩, hpair⟩
    rcases mem_heartbeatIndices.mp hmem with ⟨-, n, hn, hreply⟩ | ⟨hj, u', n, hu', -, hn, hreply⟩
    · cases hu.symm.trans hn
      rw [(toolUseIds_of_isNoReply hreply).1] at huser
      cases huser
    · rw [h j u n hj hu huser hn hreply] at hxu
      cases hxu
  · intro u j x hu hrole hx
    obtain ⟨i, hpair⟩ := hpaired.result_answers j u x (mem_survivors.mp hu).1 hrole hx
    obtain ⟨-, ⟨a, ha, harole, hxa⟩, -⟩ := id hpair
    exact ⟨a, i, use_survives ha harole hxa, hpair⟩

def call : Message := ⟨.assistant, .blocks [.toolUse "t1" "shell" .null]⟩

def result : Message := ⟨.user, .blocks [.toolResult "t1" "done" false]⟩

theorem pair_call_result (before after : List Message) :
    Pair (before ++ call :: result :: after) "t1" before.length (before.length + 1) := by
  refine ⟨⟨Nat.lt_succ_self _, by simp [result], fun k h h' => by omega⟩, ?_, ?_⟩
  · exact ⟨call, by simp, rfl, by simp [call, ContentBlock.toolUseId?]⟩
  · exact ⟨result, by simp, by simp [result, ContentBlock.toolResultId?]⟩

theorem getElem?_call {before after : List Message}
    (h : (before ++ call :: result :: after)[i]? = some m) :
    m ∈ before ++ after ∨ (i = before.length ∧ m = call) ∨
      (i = before.length + 1 ∧ m = result) := by
  rcases Nat.lt_or_ge i before.length with hlt | hge
  · rw [getElem?_append_left hlt] at h
    exact .inl (mem_append_left _ (mem_of_getElem? h))
  · obtain ⟨k, rfl⟩ := Nat.exists_eq_add_of_le hge
    rw [getElem?_append_right hge, Nat.add_sub_cancel_left] at h
    match k with
    | 0 => exact .inr (.inl ⟨rfl, (Option.some.inj h).symm⟩)
    | 1 => exact .inr (.inr ⟨rfl, (Option.some.inj h).symm⟩)
    | k + 2 => exact .inl (mem_append_right _ (mem_of_getElem? h))

theorem pairedTurns_call (before after : List Message)
    (hplain : ∀ m ∈ before ++ after, m.toolUseIds = [] ∧ m.toolResultIds = []) :
    PairedTurns (before ++ call :: result :: after) := by
  refine ⟨fun i a x ha _ hx => ?_, fun j u x hu _ hx => ?_⟩
  · rcases getElem?_call ha with hmem | ⟨rfl, rfl⟩ | ⟨rfl, rfl⟩
    · rw [(hplain a hmem).1] at hx
      cases hx
    · obtain rfl := mem_singleton.mp hx
      exact ⟨_, pair_call_result before after⟩
    · cases hx
  · rcases getElem?_call hu with hmem | ⟨rfl, rfl⟩ | ⟨rfl, rfl⟩
    · rw [(hplain u hmem).2] at hx
      cases hx
    · cases hx
    · obtain rfl := mem_singleton.mp hx
      exact ⟨_, pair_call_result before after⟩

/-- A heartbeat turn in front of a call. -/
theorem keepsPairs_heartbeat :
    KeepsPairs ([.ofUser "ping", .ofAssistant "NO_REPLY"] ++ call :: result :: []) 0 := by
  refine (keepsPairs_iff _ 0 (pairedTurns_call _ _ (by simp [ofUser, ofAssistant]))).mpr ?_
  intro i u n hi hu huser hn hreply
  rcases getElem?_call hu with hmem | ⟨rfl, rfl⟩ | ⟨rfl, rfl⟩
  · simp only [append_nil, mem_cons, not_mem_nil, or_false] at hmem
    rcases hmem with rfl | rfl <;> rfl
  · rfl
  · cases hn

/-- The result of a tool is taken for the trigger of a message without a reply. -/
theorem result_pruned :
    PairedTurns [call, result, .ofAssistant "NO_REPLY"] ∧
    pruneHeartbeatTurns [call, result, .ofAssistant "NO_REPLY"] 0 = [call] ∧
    ¬ KeepsPairs [call, result, .ofAssistant "NO_REPLY"] 0 := by
  have hpair : Pair [call, result, .ofAssistant "NO_REPLY"] "t1" 0 1 :=
    pair_call_result [] [.ofAssistant "NO_REPLY"]
  have hremoved : heartbeatIndices [call, result, .ofAssistant "NO_REPLY"] 3 = [2, 1] := by
    decide +kernel
  have hx : "t1" ∈ call.toolUseIds := by decide
  refine ⟨pairedTurns_call [] _ (by simp [ofAssistant]), ?_, fun h => ?_⟩
  · rw [pruneHeartbeatTurns_eq, survivors, length_cons, length_cons,
      length_singleton, hremoved]
    rfl
  · obtain ⟨u, j, hj, hnext, -⟩ := h.uses call 0 "t1" (use_survives rfl rfl hx) rfl hx
    obtain rfl := hpair.1.unique hnext
    refine (mem_survivors.mp hj).2 ?_
    rw [length_cons, length_cons, length_singleton, hremoved]
    simp

end AlloyAgent.HeartbeatPruning
