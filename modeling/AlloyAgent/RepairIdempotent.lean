import AlloyAgent.RepairContent
import AlloyAgent.RepairRoles

/-!
# Repair is idempotent

A repaired history is `Stable`, whatever roles the blocks of the history stood under, as long as its
tool use ids are distinct.

* `stable_validateAndRepair`: a repaired history is stable;
* `validateAndRepair_idempotent`: so a second repair changes nothing.
-/

namespace AlloyAgent.SessionRepair

open List Message

variable {ms : List Message} {ids : List String}

def assistantUseIds (ms : List Message) : List String :=
  ms.flatMap fun m => if m.role = .assistant then m.toolUseIds else []

theorem allToolUseIds_neutral (ids : List String) (ms : List Message) :
    allToolUseIds (ms.map (neutral ids)) = assistantUseIds ms := by
  rw [allToolUseIds, flatMap_map]
  exact flatMap_congr fun m _ => toolUseIds_neutral m

theorem assistantUseIds_eq_skeleton (ms : List Message) :
    assistantUseIds ms =
      (skeleton ms).filterMap fun p => if p.1 = .assistant then p.2.toolUseId? else none := by
  rw [assistantUseIds, skeleton, filterMap_flatMap]
  refine flatMap_congr fun m _ => ?_
  split
  · rename_i hrole
    rw [toolUseIds_eq_spoken]
    refine filterMap_congr fun p hp => ?_
    rw [role_of_mem_spoken hp, if_pos hrole]
  · rename_i hrole
    refine (filterMap_eq_nil_iff.mpr fun p hp => ?_).symm
    rw [role_of_mem_spoken hp, if_neg hrole]

theorem assistantUseIds_sublist (ms : List Message) :
    (assistantUseIds ms).Sublist (allToolUseIds ms) := by
  induction ms with
  | nil => exact .refl _
  | cons m ms ih =>
    rw [assistantUseIds, allToolUseIds, flatMap_cons, flatMap_cons]
    refine List.Sublist.append ?_ ih
    split
    · exact .refl _
    · exact nil_sublist _

/-- The results that answer the tool uses with `ids` directly follow them. -/
structure InPlace (ids : List String) (ms : List Message) : Prop where
  nonEmpty : NonEmpty ms
  nodup : (allToolUseIds ms).Nodup
  uses : assistantUseIds ms = ids
  known : ∀ x ∈ allToolResultIds ms, x ∈ allToolUseIds ms
  placed : (nothing :: ms.map (neutral ids)).IsChain Placed

theorem InPlace.usesIn (h : InPlace ids ms) : UsesIn ids ms := by
  intro m hm hrole x hx
  rw [← h.uses]
  exact mem_flatMap.mpr ⟨m, hm, by rwa [if_pos hrole]⟩

theorem tidy_neutral (ids : List String) (hne : NonEmpty ms) (hnd : (allToolUseIds ms).Nodup) :
    Tidy (ms.map (neutral ids)) := by
  refine ⟨fun m' hm' => ?_, fun m' hm' => ?_, ?_⟩
  · obtain ⟨m, -, rfl⟩ := mem_map.mp hm'
    exact roleOk_neutral m
  · obtain ⟨m, hm, rfl⟩ := mem_map.mp hm'
    rw [isEmpty_neutral]
    exact hne m hm
  · rw [allToolUseIds_neutral]
    exact hnd.sublist (assistantUseIds_sublist ms)

theorem InPlace.misplacedResults_eq_nil (h : InPlace ids ms) :
    misplacedResults (toolUseIndex ms) ms = [] := by
  refine eq_nil_iff_forall_not_mem.mpr fun p hp => ?_
  obtain ⟨m, hm, hrole, hblock, hid, hindex, hne⟩ := mem_misplacedResults.mp hp
  obtain ⟨a, ha, -, hxa⟩ := mem_toolUsePositions_of_lookup hindex
  have hx : p.toolUseId ∈ (neutral ids m).toolResultIds := by
    rw [toolResultIds_neutral, if_pos hrole, mem_filter]
    exact ⟨mem_filterMap.mpr ⟨p.block, hblock, hid⟩,
      decide_eq_true (h.usesIn.of_lookup hindex)⟩
  obtain ⟨i, a', hi, ha', hxa'⟩ := isChain_placed_iff.mp h.placed p.msgIdx (neutral ids m)
    p.toolUseId (by rw [getElem?_map, hm]; rfl) hx
  rw [getElem?_map] at ha'
  obtain ⟨a'', ha'', rfl⟩ := Option.map_eq_some_iff.mp ha'
  rw [toolUseIds_neutral] at hxa'
  split at hxa'
  · -- the tool use that it follows is the one that is indexed
    have hpos := getElem?_unique_of_nodup_flatMap h.nodup ha ha'' hxa hxa'
    omega
  · cases hxa'

theorem inPlace_reorder (hnd : (allToolUseIds ms).Nodup) :
    InPlace (assistantUseIds (cleanHistory ms)) (reorderToolResults (cleanHistory ms)).1 := by
  have huses : allToolUseIds (cleanHistory ms) = allToolUseIds ms :=
    allToolUseIds_filterMap_cleanMessage _ ms
  have hne := nonEmpty_cleanHistory ms
  obtain ⟨hne', hout, hres⟩ := reorder_content hne
  have hskel := skeleton_congr hout
  have htidy := tidy_neutral (assistantUseIds (cleanHistory ms)) hne (huses ▸ hnd)
  have husesIn : UsesIn (assistantUseIds (cleanHistory ms)) (cleanHistory ms) :=
    fun m hm hrole x hx => mem_flatMap.mpr ⟨m, hm, by rwa [if_pos hrole]⟩
  refine ⟨hne', ?_, ?_, fun x hx => ?_, ?_⟩
  · rw [allToolUseIds_eq_skeleton, hskel, ← allToolUseIds_eq_skeleton, huses]
    exact hnd
  · rw [assistantUseIds_eq_skeleton, hskel, ← assistantUseIds_eq_skeleton]
  · rw [allToolUseIds_eq_skeleton, hskel, ← allToolUseIds_eq_skeleton]
    rw [allToolResultIds_eq_allResults] at hx
    obtain ⟨b, hb, hbx⟩ := mem_filterMap.mp hx
    obtain ⟨m, hm, hbm⟩ := mem_flatMap.mp (hres b hb)
    exact mem_allToolUseIds_of_mem_cleanHistory hm
      (mem_filterMap.mpr ⟨b, (mem_filter.mp hbm).1, hbx⟩)
  · rw [← husesIn.reorder_neutral]
    refine (htidy.placed_reorder fun m hm x hx => ?_).2
    obtain ⟨m, -, rfl⟩ := mem_map.mp hm
    rw [toolResultIds_neutral] at hx
    split at hx
    · rw [allToolUseIds_neutral]
      exact of_decide_eq_true (mem_filter.mp hx).2
    · cases hx

variable {ms' : List Message}

theorem assistantUseIds_congr (h : skeleton ms' = skeleton ms) :
    allToolUseIds ms' = allToolUseIds ms ∧ assistantUseIds ms' = assistantUseIds ms := by
  rw [allToolUseIds_eq_skeleton, assistantUseIds_eq_skeleton, h, ← allToolUseIds_eq_skeleton,
    ← assistantUseIds_eq_skeleton]
  exact ⟨rfl, rfl⟩

theorem InPlace.of_uses (h : InPlace ids ms) (hne : NonEmpty ms')
    (huses : allToolUseIds ms' = allToolUseIds ms ∧ assistantUseIds ms' = assistantUseIds ms)
    (hres : ∀ x ∈ allToolResultIds ms', x ∈ allToolResultIds ms ∨ x ∈ ids)
    (hplaced : (nothing :: ms'.map (neutral ids)).IsChain Placed) : InPlace ids ms' := by
  refine ⟨hne, huses.1 ▸ h.nodup, huses.2.trans h.uses, fun x hx => ?_, hplaced⟩
  rw [huses.1]
  rcases hres x hx with hx | hx
  · exact h.known x hx
  · rw [← h.uses] at hx
    exact (assistantUseIds_sublist ms).subset hx

theorem InPlace.insertSynthetic (h : InPlace ids ms) :
    InPlace ids (insertSyntheticResults ms).1 ∧
      ∀ x ∈ ids, x ∈ allToolResultIds (insertSyntheticResults ms).1 := by
  obtain ⟨hne, hout, hmem⟩ := insertSynthetic_content h.nonEmpty
  refine ⟨h.of_uses hne (assistantUseIds_congr (skeleton_congr hout)) (fun x hx => ?_) ?_,
    fun x hx => ?_⟩
  · obtain ⟨b, hb, hbx⟩ := mem_allToolResultIds_iff.mp hx
    rcases (hmem b).mp hb with hb | ⟨k, y, rfl, hk⟩
    · exact .inl (mem_allToolResultIds_iff.mpr ⟨b, hb, hbx⟩)
    · obtain rfl : y = x := Option.some.inj hbx
      obtain ⟨m, hm, hrole, hxm, -⟩ := mem_orphanedUses.mp hk
      exact .inr (h.usesIn m (mem_of_getElem? hm) hrole y hxm)
  · have hins := resultEdits_syntheticGroups ms
    have hgroup : ∀ k bs, (syntheticGroups ms).lookup k = some bs → ∀ b ∈ bs,
        ∃ x m, b = syntheticResult x ∧ ms[k]? = some m ∧ m.role = .assistant ∧
          x ∈ m.toolUseIds := by
      intro k bs hk b hb
      have hb' : b ∈ ((syntheticGroups ms).lookup k).getD [] := by rw [hk]; exact hb
      obtain ⟨x, rfl, hx⟩ := mem_syntheticGroups.mp hb'
      obtain ⟨m, hm, hrole, hxm, -⟩ := mem_orphanedUses.mp hx
      exact ⟨x, m, rfl, hm, hrole, hxm⟩
    have hfor : ∀ k bs, (syntheticGroups ms).lookup k = some bs → ResultsFor ids bs := by
      intro k bs hk b hb
      obtain ⟨x, m, rfl, hm, hrole, hxm⟩ := hgroup k bs hk b hb
      exact ⟨x, h.usesIn m (mem_of_getElem? hm) hrole x hxm, rfl⟩
    have htidy := tidy_neutral ids h.nonEmpty h.nodup
    rw [insertSyntheticResults_eq, map_weave fun k bs hk l => (hfor k bs hk).attachBlocks_neutral l]
    refine isChain_placed_weave hins (fun m hm => ⟨htidy.roleOk m hm, htidy.nonEmpty m hm⟩) ?_
      h.placed
    intro j m' bs hm' hk x hx
    rw [Nat.zero_add] at hk
    rw [getElem?_map] at hm'
    obtain ⟨m, hm, rfl⟩ := Option.map_eq_some_iff.mp hm'
    obtain ⟨b, hb, hbx⟩ := mem_filterMap.mp hx
    obtain ⟨y, a, rfl, ha, hrole, hya⟩ := hgroup j bs hk b hb
    obtain rfl : y = x := Option.some.inj hbx
    cases hm.symm.trans ha
    rw [toolUseIds_neutral, if_pos hrole]
    exact hya
  · rw [← h.uses] at hx
    obtain ⟨m, hm, hxm⟩ := mem_flatMap.mp hx
    split at hxm
    · rename_i hrole
      obtain ⟨k, hk⟩ := getElem?_of_mem hm
      rw [mem_allToolResultIds_iff]
      by_cases hex : x ∈ allToolResultIds ms
      · obtain ⟨b, hb, hbx⟩ := mem_allToolResultIds_iff.mp hex
        exact ⟨b, (hmem b).mpr (.inl hb), hbx⟩
      · exact ⟨syntheticResult x, (hmem _).mpr (.inr ⟨k, x, rfl,
          mem_orphanedUses.mpr ⟨m, hk, hrole, hxm, hex⟩⟩), rfl⟩
    · cases hxm

theorem isChain_placed_of_forall₂
    (h : List.Forall₂ (fun m m' : Message => m'.toolUseIds = m.toolUseIds ∧
      ∀ x ∈ m'.toolResultIds, x ∈ m.toolResultIds) ms ms') :
    ∀ {p p' : Message}, p'.toolUseIds = p.toolUseIds → (p :: ms).IsChain Placed →
      (p' :: ms').IsChain Placed := by
  induction h with
  | nil => intro p p' _ _; exact isChain_singleton _
  | cons hmm _ ih =>
    intro p p' hp hchain
    obtain ⟨hpm, hrest⟩ := isChain_cons_cons.mp hchain
    refine isChain_cons_cons.mpr ⟨fun x hx => ?_, ih hmm.1 hrest⟩
    rw [hp]
    exact hpm x (hmm.2 x hx)

theorem forall₂_dedupMessages_fewer (ms : List Message) : ∀ seen : List String,
    List.Forall₂ (fun m m' : Message => m'.role = m.role ∧ m'.toolUseIds = m.toolUseIds ∧
      ∀ x ∈ m'.toolResultIds, x ∈ m.toolResultIds) ms (dedupMessages seen ms).1 := by
  induction ms with
  | nil => exact fun seen => .nil
  | cons m ms ih =>
    intro seen
    obtain ⟨r, c⟩ := m
    cases c with
    | text s => exact .cons ⟨rfl, rfl, fun x hx => hx⟩ (ih seen)
    | blocks bs =>
      obtain ⟨huse, hres, -, -⟩ := dedupBlocks_spec bs seen
      exact .cons ⟨rfl, huse, fun x hx => ((hres x).mp hx).1⟩ (ih _)

theorem InPlace.deduplicate (h : InPlace ids ms) : InPlace ids (deduplicateToolResults ms).1 := by
  obtain ⟨hne, hout, hres⟩ := deduplicate_content ms
  refine h.of_uses hne (assistantUseIds_congr (skeleton_congr hout)) (fun x hx => .inl ?_) ?_
  · obtain ⟨b, hb, hbx⟩ := mem_allToolResultIds_iff.mp hx
    exact mem_allToolResultIds_iff.mpr ⟨b, hres b hb, hbx⟩
  · have hfewer := forall₂_dedupMessages_fewer ms []
    rw [deduplicateToolResults, ← retainNonEmpty_neutral]
    refine isChain_placed_retainNonEmpty (isChain_placed_of_forall₂ ?_ rfl h.placed)
    rw [forall₂_map_left_iff, forall₂_map_right_iff]
    refine hfewer.imp fun m m' hmm => ⟨?_, fun x hx => ?_⟩
    · rw [toolUseIds_neutral, toolUseIds_neutral, hmm.1, hmm.2.1]
    · rw [toolResultIds_neutral, hmm.1] at hx
      rw [toolResultIds_neutral]
      split at hx
      · rw [if_pos ‹_›]
        obtain ⟨hx, hid⟩ := mem_filter.mp hx
        exact mem_filter.mpr ⟨hmm.2.2 x hx, hid⟩
      · cases hx

theorem isChain_placed_removeAborted (ms : List Message) :
    ∀ {p : Message}, (p :: ms.map (neutral ids)).IsChain Placed →
      (p :: (removeAbortedAssistantMessages ms).map (neutral ids)).IsChain Placed := by
  fun_induction removeAbortedAssistantMessages ms with
  | case1 m n rest hblank ih =>
    intro p h
    obtain ⟨-, hmn⟩ := isChain_cons_cons.mp h
    refine ih (hmn.imp_head fun {w} hw x hx => ?_)
    have hxm := hw x hx
    rw [toolUseIds_neutral, if_pos hblank.1, (no_tools_of_blank hblank.2).1] at hxm
    cases hxm
  | case2 m n rest _ ih =>
    intro p h
    obtain ⟨hpm, hmn⟩ := isChain_cons_cons.mp h
    exact isChain_cons_cons.mpr ⟨hpm, ih hmn⟩
  | case3 ms _ => intro p h; exact h

theorem InPlace.removeAborted (h : InPlace ids ms) :
    InPlace ids (removeAbortedAssistantMessages ms) := by
  refine h.of_uses (removeAborted_content h.nonEmpty).1 ⟨?_, ?_⟩ (fun x hx => .inl ?_)
    (isChain_placed_removeAborted ms h.placed)
  · exact flatMap_removeAborted (fun m hm => (no_tools_of_blank hm).1) ms
  · refine flatMap_removeAborted (fun m hm => ?_) ms
    rw [(no_tools_of_blank hm).1, ite_self]
  · rwa [allToolResultIds_removeAborted] at hx

theorem neutral_merge (hrole : m.role = n.role) :
    neutral ids ⟨m.role, m.content.merge n.content⟩ =
      ⟨m.role, (neutral ids m).content.merge (neutral ids n).content⟩ := by
  have hblocks : ∀ (r : Role) (bs : List ContentBlock), neutral ids ⟨r, .blocks bs⟩ =
      ⟨r, .blocks (bs.map (neutralBlock ids r))⟩ := fun _ _ => rfl
  rw [MessageContent.merge, hblocks, map_append, MessageContent.merge, toBlocks_neutral,
    toBlocks_neutral, hrole]

theorem mergePush_neutral (merged : List Message) (msg : Message) :
    (mergePush merged msg).map (neutral ids) =
      mergePush (merged.map (neutral ids)) (neutral ids msg) := by
  rcases eq_nil_or_concat merged with rfl | ⟨init, last, rfl⟩
  · rfl
  · simp only [mergePush, concat_eq_append, map_append, map_singleton,
      getLast?_concat, dropLast_concat, role_neutral]
    split
    · rename_i hrole
      rw [map_append, map_singleton, neutral_merge hrole]
    · rw [map_append, map_append, map_singleton, map_singleton]

theorem isChain_placed_mergePush (hrole : ∀ m ∈ merged ++ msg :: rest, m.RoleOk)
    (h : (nothing :: (merged ++ msg :: rest)).IsChain Placed) :
    (nothing :: (mergePush merged msg ++ rest)).IsChain Placed := by
  rcases eq_nil_or_concat merged with rfl | ⟨init, last, rfl⟩
  · exact h
  · rw [concat_eq_append, append_assoc, singleton_append] at h hrole
    simp only [mergePush, concat_eq_append, getLast?_concat, dropLast_concat]
    split
    · rename_i hsame
      have hchain : ((nothing :: init) ++ last :: msg :: rest).IsChain Placed := h
      have hpair : Placed last msg :=
        (isChain_cons_cons.mp (isChain_split.mp hchain).2).1
      have hnone : msg.toolResultIds = [] := by
        by_cases hr : msg.role = .user
        · have huse := (hrole last (by simp)).1 (by rw [hsame, hr]; decide)
          refine eq_nil_iff_forall_not_mem.mpr fun x hx => ?_
          have hx' := hpair x hx
          rw [huse] at hx'
          cases hx'
        · exact (hrole msg (by simp)).2 hr
      rw [append_assoc, singleton_append]
      refine isChain_fuse hchain (fun w hw x hx => ?_) fun w hw x hx => ?_
      · rw [toolResultIds_merge, hnone, append_nil] at hx
        exact hw x hx
      · rw [toolUseIds_merge]
        exact mem_append_right _ (hw x hx)
    · rw [append_assoc, append_assoc, singleton_append, singleton_append]
      exact h

theorem isChain_placed_mergeConsecutive (ms : List Message)
    (h : (nothing :: ms.map (neutral ids)).IsChain Placed) :
    (nothing :: (mergeConsecutive ms).map (neutral ids)).IsChain Placed := by
  have hrun : ∀ rest merged : List Message,
      (nothing :: (merged ++ rest).map (neutral ids)).IsChain Placed →
      (nothing :: (rest.foldl mergePush merged).map (neutral ids)).IsChain Placed := by
    intro rest
    induction rest with
    | nil =>
      intro merged hchain
      rwa [append_nil] at hchain
    | cons msg rest ih =>
      intro merged hchain
      refine ih _ ?_
      rw [map_append, map_cons] at hchain
      rw [map_append, mergePush_neutral]
      refine isChain_placed_mergePush (fun m hm => ?_) hchain
      rw [← map_cons, ← map_append] at hm
      obtain ⟨m', -, rfl⟩ := mem_map.mp hm
      exact roleOk_neutral m'
  exact hrun ms [] h

theorem InPlace.mergeConsecutive (h : InPlace ids ms) : InPlace ids (mergeConsecutive ms) := by
  obtain ⟨hne, hskel, hres⟩ := mergeConsecutive_content h.nonEmpty
  refine h.of_uses hne (assistantUseIds_congr hskel) (fun x hx => .inl ?_)
    (isChain_placed_mergeConsecutive ms h.placed)
  rwa [allToolResultIds_mergeConsecutive] at hx

theorem notBlank_removeAborted (ms : List Message) :
    ∀ m ∈ (removeAbortedAssistantMessages ms).dropLast, m.role = .assistant →
      isEmptyOrBlankContent m.content = false := by
  fun_induction removeAbortedAssistantMessages ms with
  | case1 m n rest hblank ih => exact ih
  | case2 m n rest hnot ih =>
    intro k hk hrole
    cases hrest : removeAbortedAssistantMessages (n :: rest) with
    | nil =>
      rw [hrest] at hk
      cases hk
    | cons b l =>
      rw [hrest] at ih hk
      rcases mem_cons.mp hk with rfl | hk
      · simpa [hrole] using hnot
      · exact ih k hk hrole
  | case3 ms hnot =>
    rcases ms with _ | ⟨m, _ | ⟨n, rest⟩⟩
    · simp
    · simp
    · exact absurd rfl (hnot m n rest)

theorem blank_of_merge {m n : Message}
    (h : isEmptyOrBlankContent (m.content.merge n.content) = true) :
    isEmptyOrBlankContent m.content = true := by
  rw [MessageContent.merge, isEmptyOrBlankContent, all_append, Bool.and_eq_true] at h
  obtain ⟨r, c⟩ := m
  cases c with
  | text s => simpa [isEmptyOrBlankContent, MessageContent.toBlocks] using h.1
  | blocks bs => exact h.1

theorem notBlank_mergeConsecutive
    (h : ∀ m ∈ ms.dropLast, m.role = .assistant → isEmptyOrBlankContent m.content = false) :
    ∀ m ∈ (mergeConsecutive ms).dropLast, m.role = .assistant →
      isEmptyOrBlankContent m.content = false := by
  rcases eq_nil_or_concat ms with rfl | ⟨init, last, rfl⟩
  · simp [mergeConsecutive]
  · rw [concat_eq_append, dropLast_concat] at h
    have hinit : ∀ m ∈ mergeConsecutive init, m.role = .assistant →
        isEmptyOrBlankContent m.content = false := by
      refine forall_mem_foldl_mergePush (fun m n hm hrole => ?_) (by simp) h
      rw [← Bool.not_eq_true]
      intro hblank
      rw [blank_of_merge hblank] at hm
      cases hm hrole
    have hpush : mergeConsecutive (init.concat last) = mergePush (mergeConsecutive init) last := by
      rw [mergeConsecutive, concat_eq_append, foldl_append]
      rfl
    rw [hpush]
    intro m hm
    refine hinit m ?_
    rw [mergePush] at hm
    split at hm
    · split at hm
      · rw [dropLast_concat] at hm
        exact mem_of_mem_dropLast hm
      · rwa [dropLast_concat] at hm
    · rwa [dropLast_concat] at hm

/-! ## The whole pipeline -/

/-- **A repaired history is stable.** -/
theorem stable_validateAndRepair (hnd : (allToolUseIds ms).Nodup) :
    Stable (validateAndRepair ms) := by
  have hreorder := inPlace_reorder hnd
  obtain ⟨hinsert, hanswered⟩ := hreorder.insertSynthetic
  have hdedup := hinsert.deduplicate
  have hmerged := hdedup.removeAborted.mergeConsecutive
  have hnodup := nodup_results_validateAndRepair ms
  have hknown := hmerged.known
  have hplaced := hmerged.misplacedResults_eq_nil
  have halt := alternating_mergeConsecutive (removeAbortedAssistantMessages (deduplicateToolResults
      (insertSyntheticResults (reorderToolResults (cleanHistory ms)).1).1).1)
  have hblank := notBlank_mergeConsecutive (notBlank_removeAborted (deduplicateToolResults
      (insertSyntheticResults (reorderToolResults (cleanHistory ms)).1).1).1)
  rw [validateAndRepair_eq] at hnodup ⊢
  refine ⟨hmerged.nonEmpty, fun m hm x hx => hknown x (mem_flatMap.mpr ⟨m, hm, hx⟩), hplaced,
    ?_, hnodup, hblank, halt⟩
  refine eq_nil_iff_forall_not_mem.mpr fun p hp => ?_
  obtain ⟨m, hm, hrole, hx, hex⟩ := mem_orphanedUses.mp hp
  -- the tool use was answered when synthetic results were inserted, and one result is left
  have hans := hanswered p.2 (hmerged.usesIn m (mem_of_getElem? hm) hrole p.2 hx)
  refine hex ?_
  rw [allToolResultIds_mergeConsecutive, allToolResultIds_removeAborted, deduplicateToolResults,
    allToolResultIds_retainNonEmpty, (dedupMessages_results _ []).1]
  exact ⟨hans, by simp⟩

/-- **Repair is idempotent**, and there is nothing to report the second time. -/
theorem validateAndRepair_idempotent (ms : List Message) (hnd : (allToolUseIds ms).Nodup) :
    validateAndRepair (validateAndRepair ms) = validateAndRepair ms ∧
      (validateAndRepairWithStats (validateAndRepair ms)).2 = RepairStats.zero := by
  have hfixed := (stable_validateAndRepair hnd).fixed
  exact ⟨by rw [validateAndRepair, hfixed], by rw [hfixed]⟩

/-- A broken history, and after it a result of the system and a tool use of the user. -/
def mixedRoles : List Message :=
  brokenHistory ++ [⟨.system, .blocks [.toolResult "b" "done" false]⟩,
    ⟨.user, .blocks [.toolUse "c" "shell" .null]⟩]

theorem mixedRoles_idempotent :
    validateAndRepair (validateAndRepair mixedRoles) = validateAndRepair mixedRoles :=
  (validateAndRepair_idempotent mixedRoles (by decide)).1

end AlloyAgent.SessionRepair
