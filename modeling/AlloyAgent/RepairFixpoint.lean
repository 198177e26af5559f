import AlloyAgent.RepairWellFormed

/-!
# Histories that repair leaves alone

`Stable` collects what each pass of the repair looks for. A history in which no pass finds anything
is returned as it is, and the statistics are all zero (`Stable.fixed`).

* `validTurns_fixed_iff`: the conversations of valid turns that repair leaves alone.
-/

namespace AlloyAgent.SessionRepair

open List Option Message

variable {ms : List Message}

/-- Nothing to repair. -/
structure Stable (ms : List Message) : Prop where
  nonEmpty : ∀ m ∈ ms, m.content.isEmpty = false
  /-- no result is an orphan -/
  known : ∀ m ∈ ms, ∀ x ∈ m.toolResultIds, x ∈ allToolUseIds ms
  placed : misplacedResults (toolUseIndex ms) ms = []
  answered : orphanedUses (allToolResultIds ms) ms = []
  /-- no id is answered twice -/
  nodupResults : (allToolResultIds ms).Nodup
  /-- no message of the assistant is blank, but possibly the last -/
  notBlank : ∀ m ∈ ms.dropLast, m.role = .assistant → isEmptyOrBlankContent m.content = false
  /-- no two neighbours have the same role -/
  alternating : Alternating ms

def RepairStats.zero : RepairStats := ⟨0, 0, 0, 0, 0, 0⟩

variable {m : Message}

theorem keepBlock_of_known (h : ∀ x ∈ m.toolResultIds, x ∈ ids) :
    ∀ b ∈ m.content.blockList, keepBlock ids b = true := by
  intro b hb
  rw [keepBlock, keepResult]
  split
  · rename_i id hid
    exact decide_eq_true (h id (mem_filterMap.mpr ⟨b, hb, hid⟩))
  · rfl

theorem cleanMessage_of_known (hne : m.content.isEmpty = false)
    (h : ∀ x ∈ m.toolResultIds, x ∈ ids) : cleanMessage ids m = some m := by
  have hkeep := keepBlock_of_known h
  obtain ⟨r, c⟩ := m
  cases c with
  | text s =>
    have hs : s.isEmpty = false := hne
    simp [cleanMessage, hs]
  | blocks bs =>
    have hbs : bs ≠ [] := isEmpty_eq_false_iff.mp hne
    have hfilter : bs.filter (keepBlock ids) = bs := filter_eq_self.mpr hkeep
    simp [cleanMessage, hfilter, hbs]

theorem Stable.cleanHistory_eq (h : Stable ms) : cleanHistory ms = ms := by
  rw [cleanHistory, filterMap_congr fun m hm =>
    cleanMessage_of_known (h.nonEmpty m hm) (h.known m hm)]
  exact filterMap_some

theorem Stable.orphanCount_eq (h : Stable ms) : orphanCount ms = 0 := by
  refine sum_eq_zero fun n hn => ?_
  obtain ⟨m, hm, rfl⟩ := mem_map.mp hn
  rw [countP_eq_zero]
  intro b hb
  simp [keepBlock_of_known (h.known m hm) b hb]

theorem Stable.droppedCount_eq (h : Stable ms) : droppedCount ms = 0 := by
  rw [droppedCount, countP_eq_zero]
  intro m hm
  simp [cleanMessage_of_known (h.nonEmpty m hm) (h.known m hm)]

theorem dedupBlocks_of_nodup :
    ∀ {seen : List String}, (resultIds bs).Nodup → (∀ x ∈ resultIds bs, x ∉ seen) →
      (dedupBlocks seen bs).1 = bs := by
  induction bs with
  | nil => intro seen _ _; rfl
  | cons b bs ih =>
    intro seen hnd hnew
    rcases hb : b.toolResultId? with _ | id
    · rw [resultIds, filterMap_cons_none hb] at hnd hnew
      rw [dedupBlocks_cons_other hb]
      exact congrArg (b :: ·) (ih hnd hnew)
    · rw [resultIds, filterMap_cons_some hb] at hnd hnew
      rw [nodup_cons] at hnd
      rw [forall_mem_cons] at hnew
      rw [dedupBlocks_cons_result hb, if_neg hnew.1]
      refine congrArg (b :: ·) (ih hnd.2 fun x hx => ?_)
      rw [mem_cons, not_or]
      exact ⟨fun hxid => hnd.1 (hxid ▸ hx), hnew.2 x hx⟩

theorem dedupMessages_of_nodup :
    ∀ {seen : List String}, (allToolResultIds ms).Nodup → (∀ x ∈ allToolResultIds ms, x ∉ seen) →
      dedupMessages seen ms = (ms, 0) := by
  induction ms with
  | nil => intro seen _ _; rfl
  | cons m ms ih =>
    intro seen hnd hnew
    rw [allToolResultIds, flatMap_cons] at hnd hnew
    obtain ⟨hm, hms, hdisj⟩ := nodup_append'.mp hnd
    rw [forall_mem_append] at hnew
    obtain ⟨r, c⟩ := m
    cases c with
    | text s =>
      simp only [dedupMessages, ih hms hnew.2]
    | blocks bs =>
      have hbs : (dedupBlocks seen bs).1 = bs := dedupBlocks_of_nodup hm hnew.1
      have hrest : dedupMessages (dedupBlocks seen bs).2 ms = (ms, 0) := by
        refine ih hms fun x hx hseen => ?_
        rcases ((dedupBlocks_spec bs seen).2.2.2 x).mp hseen with hseen | hseen
        · exact hnew.2 x hx hseen
        · exact hdisj hseen hx
      simp only [dedupMessages, hbs, hrest, Nat.sub_self, Nat.add_zero]

theorem Stable.deduplicate_eq (h : Stable ms) : deduplicateToolResults ms = (ms, 0) := by
  have hkeep : retainNonEmpty ms = ms :=
    filter_eq_self.mpr fun m hm => by simp [h.nonEmpty m hm]
  rw [deduplicateToolResults, dedupMessages_of_nodup h.nodupResults (by simp)]
  simp only [hkeep]

theorem removeAborted_of_notBlank
    (h : ∀ m ∈ ms.dropLast, m.role = .assistant → isEmptyOrBlankContent m.content = false) :
    removeAbortedAssistantMessages ms = ms := by
  fun_induction removeAbortedAssistantMessages ms with
  | case1 m n rest hblank _ =>
    have hm := h m (by simp) hblank.1
    rw [hm] at hblank
    exact absurd hblank.2 (by simp)
  | case2 m n rest _ ih =>
    rw [ih fun k hk => h k (by simpa using Or.inr hk)]
  | case3 ms _ => rfl

variable {rest : List Message}

theorem foldl_mergePush_of_alternating :
    ∀ {merged : List Message}, Alternating (merged ++ rest) →
      rest.foldl mergePush merged = merged ++ rest := by
  induction rest with
  | nil => intro merged _; simp
  | cons msg rest ih =>
    intro merged h
    have hpush : mergePush merged msg = merged ++ [msg] := by
      rw [mergePush]
      split
      · rename_i last hlast
        have hne := (isChain_append.mp h).2.2 last hlast msg rfl
        rw [if_neg hne]
      · rfl
    rw [foldl_cons, hpush, ih (by simpa using h)]
    simp

theorem mergeConsecutive_of_alternating (h : Alternating ms) : mergeConsecutive ms = ms :=
  foldl_mergePush_of_alternating h

/-- **A history without faults is returned as it is.** -/
theorem Stable.fixed (h : Stable ms) : validateAndRepairWithStats ms = (ms, RepairStats.zero) := by
  have hreorder : reorderToolResults ms = (ms, 0) := by
    simp only [reorderToolResults, h.placed, isEmpty_nil, if_true]
  have hinsert : insertSyntheticResults ms = (ms, 0) := by
    simp only [insertSyntheticResults, h.answered, isEmpty_nil, if_true]
  simp only [validateAndRepairWithStats, h.cleanHistory_eq, hreorder, hinsert, h.deduplicate_eq,
    removeAborted_of_notBlank h.notBlank, mergeConsecutive_of_alternating h.alternating,
    h.orphanCount_eq, h.droppedCount_eq, Nat.sub_self, Nat.add_zero, RepairStats.zero]

/-! ## Ids through the last passes -/

variable (ms)

theorem dedupMessages_results :
    ∀ seen : List String,
      (∀ x, x ∈ allToolResultIds (dedupMessages seen ms).1 ↔ x ∈ allToolResultIds ms ∧ x ∉ seen) ∧
      (allToolResultIds (dedupMessages seen ms).1).Nodup := by
  induction ms with
  | nil => intro seen; simp [dedupMessages, allToolResultIds]
  | cons m ms ih =>
    intro seen
    have hcons : ∀ (m : Message) l,
        allToolResultIds (m :: l) = m.toolResultIds ++ allToolResultIds l := fun _ _ => rfl
    obtain ⟨r, c⟩ := m
    cases c with
    | text s => exact ih seen
    | blocks bs =>
      obtain ⟨hmem, hnd⟩ := ih (dedupBlocks seen bs).2
      obtain ⟨-, hres, hnd₀, hseen⟩ := dedupBlocks_spec bs seen
      simp only [dedupMessages, hcons, toolResultIds_blocks]
      refine ⟨fun x => ?_, ?_⟩
      · rw [mem_append, mem_append, hmem, hseen, ← resultIds, hres, ← resultIds]
        tauto
      · refine nodup_append'.mpr ⟨hnd₀, hnd, fun x hx hx' => ?_⟩
        exact ((hmem x).mp hx').2 ((hseen x).mpr (.inr ((hres x).mp hx).1))

theorem toolResultIds_eq_nil_of_isEmpty (h : m.content.isEmpty = true) : m.toolResultIds = [] := by
  obtain ⟨r, c⟩ := m
  cases c with
  | text s => rfl
  | blocks bs =>
    obtain rfl : bs = [] := isEmpty_iff.mp h
    rfl

theorem allToolResultIds_retainNonEmpty :
    allToolResultIds (retainNonEmpty ms) = allToolResultIds ms :=
  flatMap_retainNonEmpty (fun _ => toolResultIds_eq_nil_of_isEmpty) ms

theorem flatMap_removeAborted {β : Type} {f : Message → List β}
    (hf : ∀ m : Message, isEmptyOrBlankContent m.content = true → f m = []) (ms : List Message) :
    (removeAbortedAssistantMessages ms).flatMap f = ms.flatMap f := by
  fun_induction removeAbortedAssistantMessages ms with
  | case1 m n rest hblank ih =>
    rw [ih, flatMap_cons (x := m), hf m hblank.2, nil_append]
  | case2 m n rest _ ih => rw [flatMap_cons, ih, ← flatMap_cons]
  | case3 ms _ => rfl

theorem allToolResultIds_removeAborted :
    allToolResultIds (removeAbortedAssistantMessages ms) = allToolResultIds ms :=
  flatMap_removeAborted (fun _ h => (no_tools_of_blank h).2) ms

variable {ms}

variable {P : Message → Prop}

section

variable (hP : ∀ m n : Message, P m → P ⟨m.role, m.content.merge n.content⟩)
include hP

theorem forall_mem_mergePush (hmerged : ∀ m ∈ merged, P m) (hmsg : P msg) :
    ∀ m ∈ mergePush merged msg, P m := by
  rcases eq_nil_or_concat merged with rfl | ⟨init, last, rfl⟩
  · simpa [mergePush] using hmsg
  · rw [concat_eq_append, forall_mem_append, forall_mem_singleton] at hmerged
    simp only [mergePush, concat_eq_append, getLast?_concat, dropLast_concat]
    split
    · rw [forall_mem_append, forall_mem_singleton]
      exact ⟨hmerged.1, hP last msg hmerged.2⟩
    · rw [forall_mem_append, forall_mem_append, forall_mem_singleton,
        forall_mem_singleton]
      exact ⟨hmerged, hmsg⟩

theorem forall_mem_foldl_mergePush :
    ∀ {merged : List Message}, (∀ m ∈ merged, P m) → (∀ m ∈ rest, P m) →
      ∀ m ∈ rest.foldl mergePush merged, P m := by
  induction rest with
  | nil => intro merged hmerged _; exact hmerged
  | cons msg rest ih =>
    intro merged hmerged hrest
    rw [forall_mem_cons] at hrest
    exact ih (forall_mem_mergePush hP hmerged hrest.1) hrest.2

theorem flatMap_foldl_mergePush {β : Type} {f : Message → List β}
    (hf : ∀ m n : Message, P m → P n → m.role = n.role →
      f ⟨m.role, m.content.merge n.content⟩ = f m ++ f n) :
    ∀ {merged : List Message}, (∀ m ∈ merged, P m) → (∀ m ∈ rest, P m) →
      (rest.foldl mergePush merged).flatMap f = (merged ++ rest).flatMap f := by
  induction rest with
  | nil => intro merged _ _; simp
  | cons msg rest ih =>
    intro merged hmerged hrest
    rw [forall_mem_cons] at hrest
    have hpush : (mergePush merged msg).flatMap f = merged.flatMap f ++ f msg := by
      rcases eq_nil_or_concat merged with rfl | ⟨init, last, rfl⟩
      · simp [mergePush]
      · simp only [mergePush, concat_eq_append, getLast?_concat, dropLast_concat]
        split
        · rename_i hrole
          simp [hf last msg (hmerged last (by simp)) hrest.1 hrole]
        · simp
    rw [foldl_cons, ih (forall_mem_mergePush hP hmerged hrest.1) hrest.2, flatMap_append,
      hpush]
    simp

end

theorem allToolResultIds_mergeConsecutive (ms : List Message) :
    allToolResultIds (mergeConsecutive ms) = allToolResultIds ms :=
  flatMap_foldl_mergePush (P := fun _ => True) (fun _ _ _ => trivial)
    (fun m n _ _ _ => toolResultIds_merge m.role m n) (fun _ _ => trivial) fun _ _ => trivial

/-- **No id is answered twice in a repaired history**, whatever it was before. -/
theorem nodup_results_validateAndRepair (ms : List Message) :
    (allToolResultIds (validateAndRepair ms)).Nodup := by
  rw [validateAndRepair_eq, allToolResultIds_mergeConsecutive, allToolResultIds_removeAborted]
  simp only [deduplicateToolResults]
  rw [allToolResultIds_retainNonEmpty]
  exact (dedupMessages_results _ []).2

/-! ## Valid conversations -/

/-- A conversation in which every turn is in order. -/
structure ValidTurns (ms : List Message) : Prop where
  nonEmpty : ∀ m ∈ ms, m.content.isEmpty = false
  roles : ∀ m ∈ ms, m.role = .user ∨ m.role = .assistant
  alternating : Alternating ms
  notBlank : ∀ m ∈ ms, m.role = .assistant → isEmptyOrBlankContent m.content = false
  /-- the ids within one message are distinct -/
  distinct : ∀ m ∈ ms, m.role = .assistant → m.toolUseIds.Nodup
  /-- each tool use is answered once in the next message -/
  answered : ∀ i a x, ms[i]? = some a → a.role = .assistant → x ∈ a.toolUseIds →
    ∃ u, ms[i + 1]? = some u ∧ u.role = .user ∧ u.toolResultIds.count x = 1
  /-- each result answers the message before it -/
  answers : ∀ j m x, ms[j]? = some m → x ∈ m.toolResultIds →
    ∃ i a, j = i + 1 ∧ ms[i]? = some a ∧ x ∈ a.toolUseIds

theorem mem_toolUsePositions_of_lookup (h : (toolUseIndex ms).lookup x = some k) :
    ∃ m, ms[k]? = some m ∧ m.role = .assistant ∧ x ∈ m.toolUseIds :=
  mem_toolUsePositions.mp (Table.mem_of_lookup_ofPairs h)

theorem ValidTurns.stable (h : ValidTurns ms) (hnd : (allToolResultIds ms).Nodup) : Stable ms := by
  refine ⟨h.nonEmpty, fun m hm x hx => ?_, ?_, ?_, hnd,
    fun m hm => h.notBlank m (mem_of_mem_dropLast hm), h.alternating⟩
  · obtain ⟨j, hj⟩ := getElem?_of_mem hm
    obtain ⟨i, a, -, ha, hxa⟩ := h.answers j m x hj hx
    exact mem_flatMap.mpr ⟨a, mem_of_getElem? ha, hxa⟩
  · refine eq_nil_iff_forall_not_mem.mpr fun p hp => ?_
    obtain ⟨m, hm, -, hblock, hid, hindex, hne⟩ := mem_misplacedResults.mp hp
    obtain ⟨a, ha, harole, hxa⟩ := mem_toolUsePositions_of_lookup hindex
    obtain ⟨u, hu, -, hcount⟩ := h.answered _ a _ ha harole hxa
    -- an id that is answered once is answered in one message
    have hxm : p.toolUseId ∈ m.toolResultIds := mem_filterMap.mpr ⟨p.block, hblock, hid⟩
    have hxu : p.toolUseId ∈ u.toolResultIds := count_pos_iff.mp (by omega)
    exact hne (getElem?_unique_of_nodup_flatMap hnd hm hu hxm hxu)
  · refine eq_nil_iff_forall_not_mem.mpr fun p hp => ?_
    obtain ⟨a, ha, harole, hxa, hex⟩ := mem_orphanedUses.mp hp
    obtain ⟨u, hu, -, hcount⟩ := h.answered _ a _ ha harole hxa
    exact hex (mem_flatMap.mpr ⟨u, mem_of_getElem? hu, count_pos_iff.mp (by omega)⟩)

/-- **When a valid conversation is left alone.** -/
theorem validTurns_fixed_iff (ms : List Message) (h : ValidTurns ms) :
    validateAndRepair ms = ms ↔ (allToolResultIds ms).Nodup := by
  refine ⟨fun heq => ?_, fun hnd => ?_⟩
  · rw [← heq]
    exact nodup_results_validateAndRepair ms
  · rw [validateAndRepair, (h.stable hnd).fixed]

def twoTurns (x y : String) : List Message :=
  [⟨.assistant, .blocks [.toolUse x "shell" .null]⟩, ⟨.user, .blocks [.toolResult x "first" false]⟩,
    ⟨.assistant, .blocks [.toolUse y "shell" .null]⟩,
    ⟨.user, .blocks [.toolResult y "second" false]⟩]

theorem validTurns_twoTurns (x y : String) : ValidTurns (twoTurns x y) := by
  refine ⟨by simp [twoTurns, MessageContent.isEmpty], by simp [twoTurns],
    by simp [twoTurns, Alternating], by simp [twoTurns, isEmptyOrBlankContent],
    by simp [twoTurns, ContentBlock.toolUseId?], ?_, ?_⟩
  · intro i a z ha hrole hz
    rcases i with _ | _ | _ | _ | i
    · cases ha
      obtain rfl := mem_singleton.mp hz
      exact ⟨_, rfl, rfl, by simp [ContentBlock.toolResultId?]⟩
    · cases ha
      cases hz
    · cases ha
      obtain rfl := mem_singleton.mp hz
      exact ⟨_, rfl, rfl, by simp [ContentBlock.toolResultId?]⟩
    · cases ha
      cases hz
    · cases ha
  · intro j m z hm hz
    rcases j with _ | _ | _ | _ | j
    · cases hm
      cases hz
    · cases hm
      exact ⟨0, _, rfl, rfl, hz⟩
    · cases hm
      cases hz
    · cases hm
      exact ⟨2, _, rfl, rfl, hz⟩
    · cases hm

theorem twoTurns_fixed : validateAndRepair (twoTurns "t1" "t2") = twoTurns "t1" "t2" :=
  (validTurns_fixed_iff _ (validTurns_twoTurns "t1" "t2")).mpr (by decide)

/-- If an id is used again, the first result is lost and the calls end up in one message. -/
theorem reused_id_broken :
    ValidTurns (twoTurns "t1" "t1") ∧
    validateAndRepair (twoTurns "t1" "t1") =
      [⟨.assistant, .blocks [.toolUse "t1" "shell" .null, .toolUse "t1" "shell" .null]⟩,
        ⟨.user, .blocks [.toolResult "t1" "second" false]⟩] :=
  ⟨validTurns_twoTurns "t1" "t1", by rfl⟩

end AlloyAgent.SessionRepair
