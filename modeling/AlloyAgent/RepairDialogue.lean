import AlloyAgent.RepairWellFormed

/-!
# Repair keeps the dialogue

The user's new message is the last message of the history that is repaired.

* `dialogue_validateAndRepair`: this is so if the user has just said something.
-/

namespace AlloyAgent

open List

/-! ## Roles that alternate -/

/-- User and assistant take turns, and the user has the last word. -/
structure Dialogue (roles : List Role) : Prop where
  alternating : roles.IsChain (· ≠ ·)
  noSystem : .system ∉ roles
  last : roles.getLast? = some .user

namespace Dialogue

variable {roles : List Role}

section

variable (h : Dialogue roles)
include h

/-- The role at distance `j` from the end. -/
theorem role_of_distance :
    ∀ (j : ℕ) (hj : j < roles.length),
      roles[roles.length - 1 - j] = if j % 2 = 0 then .user else .assistant := by
  intro j
  induction j with
  | zero =>
    intro hj
    have hlast := h.last
    rw [getLast?_eq_getElem?, getElem?_eq_getElem (by omega)] at hlast
    simpa using Option.some.inj hlast
  | succ j ih =>
    intro hj
    have hprev := ih (by omega)
    have hadj := isChain_iff_getElem.mp h.alternating (roles.length - 1 - (j + 1)) (by omega)
    have hidx : roles.length - 1 - (j + 1) + 1 = roles.length - 1 - j := by omega
    simp only [hidx, hprev] at hadj
    have hsys : roles[roles.length - 1 - (j + 1)] ≠ .system := fun hs =>
      h.noSystem (hs ▸ getElem_mem _)
    rcases Nat.mod_two_eq_zero_or_one j with hj2 | hj2
    · have hj3 : (j + 1) % 2 = 1 := by omega
      simp only [hj2, hj3] at hadj ⊢
      cases hr : roles[roles.length - 1 - (j + 1)] <;> simp_all
    · have hj3 : (j + 1) % 2 = 0 := by omega
      simp only [hj2, hj3] at hadj ⊢
      cases hr : roles[roles.length - 1 - (j + 1)] <;> simp_all

theorem role_of_even (hn : n + (2 * k + 2) = roles.length) : roles[n]? = some .assistant := by
  have hrole := h.role_of_distance (2 * k + 1) (by omega)
  have hidx : roles.length - 1 - (2 * k + 1) = n := by omega
  rw [getElem?_eq_getElem (by omega)]
  simp only [hidx] at hrole
  rw [hrole]
  simp [Nat.add_mod]

theorem drop (hn : n < roles.length) : Dialogue (roles.drop n) := by
  refine ⟨h.alternating.drop n, fun hmem => h.noSystem (mem_of_mem_drop hmem), ?_⟩
  rw [getLast?_drop, if_neg (by omega)]
  exact h.last

theorem cons_user (hfirst : roles.head? = some .assistant) : Dialogue (.user :: roles) := by
  refine ⟨isChain_cons.mpr ⟨fun r hr => ?_, h.alternating⟩, ?_, ?_⟩
  · rw [hfirst] at hr
    cases hr
    decide
  · simpa using h.noSystem
  · rw [getLast?_cons, h.last]
    rfl

theorem append_turn : Dialogue (roles ++ [.assistant, .user]) := by
  refine ⟨isChain_append.mpr ⟨h.alternating, by decide, fun r hr r' hr' => ?_⟩, ?_, ?_⟩
  · rw [h.last] at hr
    cases hr
    cases hr'
    decide
  · simpa using h.noSystem
  · simp

end

end Dialogue

/-! ## Through the passes -/

namespace SessionRepair

/-- No system message, and the last message is the user's. -/
structure UserLast (ms : List Message) : Prop where
  noSystem : ∀ m ∈ ms, m.role ≠ .system
  last : ms.getLast?.map Message.role = some .user

variable {ms : List Message}

theorem UserLast.of_concat (hms : ∀ m ∈ ms, m.role ≠ .system) (hm : m.role = .user) :
    UserLast (ms ++ [m]) := by
  refine ⟨fun m' hm' => ?_, by simp [hm]⟩
  rcases mem_append.mp hm' with hm' | hm'
  · exact hms m' hm'
  · obtain rfl := mem_singleton.mp hm'
    rw [hm]
    decide

variable (sources : List (ℕ × String))

theorem role_stripMisplaced (i : ℕ) (m : Message) : (stripMisplaced sources i m).role = m.role := by
  simp only [stripMisplaced]
  split
  · rename_i hr _
    exact hr.symm
  · rfl

variable {s : String}

theorem cleanHistory_concat (hms : ∀ m ∈ ms, m.role ≠ .system) (hs : s ≠ "") :
    ∃ init, cleanHistory (ms ++ [.ofUser s]) = init ++ [.ofUser s] ∧
      ∀ m ∈ init, m.role ≠ .system := by
  refine ⟨ms.filterMap (cleanMessage (allToolUseIds (ms ++ [.ofUser s]))), ?_, fun m hm => ?_⟩
  · rw [cleanHistory, filterMap_append]
    congr 1
    simp [cleanMessage, Message.ofUser, hs]
  · obtain ⟨m₀, hm₀, h⟩ := mem_filterMap.mp hm
    rw [(cleanMessage_eq_some h).1]
    exact hms m₀ hm₀

theorem retainNonEmpty_removeMisplaced_concat (hms : ∀ m ∈ ms, m.role ≠ .system) (hs : s ≠ "") :
    UserLast (retainNonEmpty (removeMisplaced sources (ms ++ [.ofUser s]))) := by
  have heq : retainNonEmpty (removeMisplaced sources (ms ++ [.ofUser s])) =
      retainNonEmpty (removeMisplaced sources ms) ++ [.ofUser s] := by
    rw [removeMisplaced, zipIdx_append, map_append, retainNonEmpty, filter_append]
    congr 1
    simp [stripMisplaced, Message.ofUser, MessageContent.isEmpty, hs]
  rw [heq]
  refine .of_concat (fun m hm => ?_) rfl
  obtain ⟨⟨m₀, i⟩, hmem, rfl⟩ := mem_map.mp (mem_of_mem_filter hm)
  rw [role_stripMisplaced]
  obtain ⟨hi, heq⟩ := mem_zipIdx' hmem
  exact hms m₀ (heq ▸ getElem_mem hi)

theorem mem_attachBlocks (h : m ∈ attachBlocks blocks ms) : m ∈ ms ∨ m.role = .user := by
  cases ms with
  | nil =>
    obtain rfl := mem_singleton.mp h
    exact .inr rfl
  | cons next rest =>
    rw [attachBlocks] at h
    split_ifs at h with hr
    · rcases mem_cons.mp h with rfl | h
      · exact .inr hr
      · exact .inl (mem_cons_of_mem _ h)
    · rcases mem_cons.mp h with rfl | h
      · exact .inr rfl
      · exact .inl h

theorem getLast?_attachBlocks (blocks : List ContentBlock)
    (h : ms = [] ∨ ms.getLast?.map Message.role = some .user) :
    (attachBlocks blocks ms).getLast?.map Message.role = some .user := by
  cases ms with
  | nil => rfl
  | cons next rest =>
    have hlast := h.resolve_left (cons_ne_nil _ _)
    rw [attachBlocks]
    split_ifs with hr
    · cases rest with
      | nil => simp [hr]
      | cons m rest =>
        rw [getLast?_cons_cons] at hlast ⊢
        exact hlast
    · rw [getLast?_cons_cons]
      exact hlast

theorem UserLast.attachAfter (h : UserLast ms) (i : ℕ) (blocks : List ContentBlock) :
    UserLast (attachAfter ms i blocks) := by
  refine ⟨fun m hm => ?_, ?_⟩
  · rcases mem_append.mp hm with hm | hm
    · exact h.noSystem m (mem_of_mem_take hm)
    · rcases mem_attachBlocks hm with hm | hr
      · exact h.noSystem m (mem_of_mem_drop hm)
      · rw [hr]
        decide
  · have hrest : (ms.drop (i + 1)) = [] ∨
        (ms.drop (i + 1)).getLast?.map Message.role = some .user := by
      rcases Nat.lt_or_ge (i + 1) ms.length with hlt | hge
      · rw [getLast?_drop, if_neg (by omega)]
        exact .inr h.last
      · exact .inl (drop_eq_nil_of_le hge)
    have hattach := getLast?_attachBlocks blocks hrest
    obtain ⟨m, hm, hr⟩ := Option.map_eq_some_iff.mp hattach
    rw [SessionRepair.attachAfter, getLast?_append, hm]
    exact congrArg some hr

theorem UserLast.foldl {α : Type} {f : List Message → α → List Message}
    (hf : ∀ ms a, UserLast ms → UserLast (f ms a)) (l : List α) :
    ∀ {ms : List Message}, UserLast ms → UserLast (l.foldl f ms) := by
  induction l with
  | nil => exact id
  | cons a l ih => exact fun h => ih (hf _ a h)

theorem UserLast.reorderToolResults_concat (hms : ∀ m ∈ ms, m.role ≠ .system) (hs : s ≠ "") :
    UserLast (reorderToolResults (ms ++ [.ofUser s])).1 := by
  simp only [reorderToolResults]
  split_ifs
  · exact .of_concat hms rfl
  · refine UserLast.foldl (fun ms group h => ?_) _
      (retainNonEmpty_removeMisplaced_concat _ hms hs)
    rw [reinsert]
    split
    · exact h.attachAfter _ _
    · exact h

theorem UserLast.insertSyntheticResults (h : UserLast ms) :
    UserLast (insertSyntheticResults ms).1 := by
  simp only [SessionRepair.insertSyntheticResults]
  split_ifs
  · exact h
  · exact UserLast.foldl (fun ms group h => h.attachAfter _ _) _ h

theorem map_role_of_sameIds (h : List.Forall₂ Message.SameIds ms ms') :
    ms'.map Message.role = ms.map Message.role := by
  induction h with
  | nil => rfl
  | cons hmm _ ih => rw [map_cons, map_cons, hmm.role, ih]

theorem UserLast.of_sameIds (hsame : List.Forall₂ Message.SameIds ms ms') (h : UserLast ms) :
    UserLast ms' := by
  refine ⟨fun m' hm' => ?_, ?_⟩
  · obtain ⟨m, hm, hmm⟩ := exists_mem_of_forall₂ hsame hm'
    rw [hmm.role]
    exact h.noSystem m hm
  · rw [← getLast?_map, map_role_of_sameIds hsame, getLast?_map]
    exact h.last

theorem getLast?_removeAborted (ms : List Message) :
    (removeAbortedAssistantMessages ms).getLast? = ms.getLast? := by
  fun_induction removeAbortedAssistantMessages ms with
  | case1 m n rest _ ih => rw [ih, getLast?_cons_cons]
  | case2 m n rest _ ih => rw [getLast?_cons, ih, ← getLast?_cons]
  | case3 ms _ => rfl

theorem UserLast.removeAborted (h : UserLast ms) :
    UserLast (removeAbortedAssistantMessages ms) := by
  refine ⟨fun m hm => h.noSystem m ((removeAborted_sublist ms).subset hm), ?_⟩
  rw [getLast?_removeAborted]
  exact h.last

theorem mergePush_roles (hmerged : ∀ m ∈ merged, m.role ≠ .system) (hmsg : msg.role ≠ .system) :
    (∀ m ∈ mergePush merged msg, m.role ≠ .system) ∧
      (mergePush merged msg).getLast?.map Message.role = some msg.role := by
  have hpush : ∀ m ∈ merged ++ [msg], m.role ≠ .system := by
    intro m hm
    rcases mem_append.mp hm with hm | hm
    · exact hmerged m hm
    · rwa [mem_singleton.mp hm]
  rw [mergePush]
  split
  · rename_i last hlast
    split_ifs with hr
    · refine ⟨fun m hm => ?_, by simp [hr]⟩
      rcases mem_append.mp hm with hm | hm
      · exact hmerged m (mem_of_mem_dropLast hm)
      · rw [mem_singleton.mp hm]
        exact hmerged last (mem_of_getLast? hlast)
    · exact ⟨hpush, by simp⟩
  · exact ⟨hpush, by simp⟩

theorem UserLast.mergeConsecutive (h : UserLast ms) : UserLast (mergeConsecutive ms) := by
  have hroles : ∀ (l merged : List Message), (∀ m ∈ merged, m.role ≠ .system) →
      (∀ m ∈ l, m.role ≠ .system) → ∀ m ∈ l.foldl mergePush merged, m.role ≠ .system := by
    intro l
    induction l with
    | nil => exact fun merged hm _ => hm
    | cons msg l ih =>
      intro merged hm hl
      exact ih _ (mergePush_roles hm (hl msg mem_cons_self)).1
        fun m hm' => hl m (mem_cons_of_mem _ hm')
  obtain ⟨m, hm, hr⟩ := Option.map_eq_some_iff.mp h.last
  obtain ⟨init, rfl⟩ := getLast?_eq_some_iff.mp hm
  have hinit := hroles init [] (by simp) fun m' hm' => h.noSystem m' (mem_append_left _ hm')
  have hmsg := h.noSystem m (by simp)
  rw [SessionRepair.mergeConsecutive, foldl_append, foldl_cons, foldl_nil]
  obtain ⟨hnone, hlast⟩ := mergePush_roles hinit hmsg
  exact ⟨hnone, hlast.trans (congrArg some hr)⟩

/-- **A repaired history is a dialogue** if the user has just said something. -/
theorem dialogue_validateAndRepair (hrole : ∀ m ∈ ms ++ [.ofUser s], m.RoleOk)
    (hnodup : (allToolUseIds (ms ++ [.ofUser s])).Nodup) (hms : ∀ m ∈ ms, m.role ≠ .system)
    (hs : s ≠ "") : Dialogue ((validateAndRepair (ms ++ [.ofUser s])).map Message.role) := by
  obtain ⟨halt, -⟩ := settled_validateAndRepair hrole hnodup
  have hclean := tidy_cleanHistory hrole hnodup
  obtain ⟨hreorder, hplaced⟩ := hclean.placed_reorder fun m hm x hx =>
    mem_allToolUseIds_of_mem_cleanHistory hm hx
  obtain ⟨hanswered, hpaired⟩ := hreorder.paired_insertSynthetic hplaced
  obtain ⟨init, heq, hinit⟩ := cleanHistory_concat hms hs
  have hlast := (UserLast.reorderToolResults_concat hinit hs).insertSyntheticResults
  rw [← heq] at hlast
  have hend := ((hlast.of_sameIds ((hanswered.forall₂_deduplicate hpaired).imp
    fun _ _ hmm => hmm.toSameIds)).removeAborted).mergeConsecutive
  rw [← validateAndRepair_eq] at hend
  refine ⟨(isChain_map Message.role).mpr halt, fun hsys => ?_, ?_⟩
  · obtain ⟨m, hm, hr⟩ := mem_map.mp hsys
    exact hend.noSystem m hm hr
  · rw [getLast?_map]
    exact hend.last

end SessionRepair

end AlloyAgent
