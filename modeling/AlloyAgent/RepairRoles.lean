import AlloyAgent.RepairFixpoint

/-!
# Blocks in the wrong role

The repair looks for tool uses in messages of the assistant and moves results out of messages of the
user.

* `UsesIn.reorder_neutral`: the reordering does not see blocks in the wrong role.
-/

namespace AlloyAgent.SessionRepair

open List Message

variable {ids : List String}

/-- A tool use of the assistant, a result of the user for one of `ids`, or another block. -/
def inRole (ids : List String) (r : Role) : ContentBlock → Bool
  | .toolUse _ _ _ => decide (r = .assistant)
  | .toolResult id _ _ => decide (r = .user) && decide (id ∈ ids)
  | _ => true

/-- A block that is not in its role becomes an unknown one. -/
def neutralBlock (ids : List String) (r : Role) (b : ContentBlock) : ContentBlock :=
  if inRole ids r b then b else .unknown

/-- The message as the repair sees it. -/
def neutral (ids : List String) (m : Message) : Message :=
  match m.content with
  | .text _ => m
  | .blocks bs => ⟨m.role, .blocks (bs.map (neutralBlock ids m.role))⟩

variable (m : Message)

@[simp] theorem role_neutral : (neutral ids m).role = m.role := by
  obtain ⟨r, c⟩ := m
  cases c <;> rfl

@[simp] theorem isEmpty_neutral : (neutral ids m).content.isEmpty = m.content.isEmpty := by
  obtain ⟨r, c⟩ := m
  cases c with
  | text s => rfl
  | blocks bs => simp [neutral, MessageContent.isEmpty]

theorem toBlocks_neutral :
    (neutral ids m).content.toBlocks = m.content.toBlocks.map (neutralBlock ids m.role) := by
  obtain ⟨r, c⟩ := m
  cases c <;> rfl

theorem toolUseId?_neutralBlock (r : Role) (b : ContentBlock) :
    (neutralBlock ids r b).toolUseId? = if r = .assistant then b.toolUseId? else none := by
  cases b with
  | toolUse id name input =>
    by_cases hr : r = .assistant <;> simp [neutralBlock, inRole, ContentBlock.toolUseId?, hr]
  | toolResult id content isError =>
    by_cases hr : r = .user <;> by_cases hid : id ∈ ids <;>
      simp [neutralBlock, inRole, ContentBlock.toolUseId?, hr, hid]
  | _ => simp [neutralBlock, inRole, ContentBlock.toolUseId?]

theorem toolResultId?_neutralBlock (r : Role) (b : ContentBlock) :
    (neutralBlock ids r b).toolResultId? =
      if r = .user then b.toolResultId?.filter (fun x => decide (x ∈ ids)) else none := by
  cases b with
  | toolUse id name input =>
    by_cases hr : r = .assistant <;> simp [neutralBlock, inRole, ContentBlock.toolResultId?, hr]
  | toolResult id content isError =>
    by_cases hr : r = .user <;> by_cases hid : id ∈ ids <;>
      simp [neutralBlock, inRole, ContentBlock.toolResultId?, Option.filter, hr, hid]
  | _ => simp [neutralBlock, inRole, ContentBlock.toolResultId?]

theorem toolUseIds_neutral :
    (neutral ids m).toolUseIds = if m.role = .assistant then m.toolUseIds else [] := by
  obtain ⟨r, c⟩ := m
  cases c with
  | text s => simp [neutral]
  | blocks bs =>
    simp only [neutral, toolUseIds_blocks, filterMap_map, Function.comp_def,
      toolUseId?_neutralBlock]
    split
    · rfl
    · simp

theorem toolResultIds_neutral :
    (neutral ids m).toolResultIds =
      if m.role = .user then m.toolResultIds.filter (fun x => decide (x ∈ ids)) else [] := by
  obtain ⟨r, c⟩ := m
  cases c with
  | text s => simp [neutral]
  | blocks bs =>
    simp only [neutral, toolResultIds_blocks, filterMap_map, Function.comp_def,
      toolResultId?_neutralBlock]
    split
    · rw [filter_filterMap]
    · simp

theorem roleOk_neutral : (neutral ids m).RoleOk := by
  refine ⟨fun hr => ?_, fun hr => ?_⟩
  · rw [role_neutral] at hr
    rw [toolUseIds_neutral, if_neg hr]
  · rw [role_neutral] at hr
    rw [toolResultIds_neutral, if_neg hr]

/-- Every tool use of the assistant is among `ids`. -/
def UsesIn (ids : List String) (ms : List Message) : Prop :=
  ∀ m ∈ ms, m.role = .assistant → ∀ x ∈ m.toolUseIds, x ∈ ids

variable {ms : List Message}

theorem flatMap_zipIdx_neutral {β : Type} {f : Message → ℕ → List β}
    (hf : ∀ i m, ms[i]? = some m → f (neutral ids m) i = f m i) :
    ((ms.map (neutral ids)).zipIdx.flatMap fun (m, i) => f m i) =
      ms.zipIdx.flatMap fun (m, i) => f m i := by
  rw [zipIdx_map, flatMap_map]
  refine flatMap_congr fun p hp => ?_
  exact hf p.2 p.1 (mem_zipIdx_iff_getElem?.mp hp)

theorem toolUseIndex_neutral (ms : List Message) :
    toolUseIndex (ms.map (neutral ids)) = toolUseIndex ms := by
  rw [toolUseIndex, toolUseIndex, toolUsePositions, toolUsePositions]
  refine congrArg _ (flatMap_zipIdx_neutral (f := fun m i =>
    if m.role = .assistant then m.toolUseIds.map (·, i) else []) fun i m _ => ?_)
  rw [role_neutral, toolUseIds_neutral]
  split <;> rfl

theorem currentAssistantPositions_neutral (index : Table String ℕ) (ms : List Message) :
    currentAssistantPositions index (ms.map (neutral ids)) =
      currentAssistantPositions index ms := by
  rw [currentAssistantPositions, currentAssistantPositions]
  refine congrArg _ (flatMap_zipIdx_neutral (f := fun m i =>
    if m.role = .assistant then m.toolUseIds.filterMap fun id => (index.lookup id).map (·, i)
    else []) fun i m _ => ?_)
  rw [role_neutral, toolUseIds_neutral]
  split <;> rfl

theorem UsesIn.of_lookup (h : UsesIn ids ms) {x : String} {k : ℕ}
    (hx : (toolUseIndex ms).lookup x = some k) : x ∈ ids := by
  obtain ⟨m, hm, hrole, hxm⟩ := mem_toolUsePositions_of_lookup hx
  exact h m (mem_of_getElem? hm) hrole x hxm

theorem blockList_neutral :
    (neutral ids m).content.blockList = m.content.blockList.map (neutralBlock ids m.role) := by
  obtain ⟨r, c⟩ := m
  cases c <;> rfl

theorem misplaced?_neutralBlock (hindex : ∀ x k, index.lookup x = some k → x ∈ ids) (i : ℕ)
    (b : ContentBlock) : misplaced? index i (neutralBlock ids .user b) = misplaced? index i b := by
  cases b with
  | toolResult id content isError =>
    by_cases hid : id ∈ ids
    · simp [neutralBlock, inRole, hid]
    · have hnone : index.lookup id = none :=
        Option.eq_none_iff_forall_ne_some.mpr fun k hk => hid (hindex id k hk)
      simp [neutralBlock, inRole, hid, misplaced?, ContentBlock.toolResultId?, hnone]
  | _ => simp [neutralBlock, inRole, misplaced?, ContentBlock.toolResultId?]

theorem UsesIn.misplacedResults_neutral (h : UsesIn ids ms) :
    misplacedResults (toolUseIndex ms) (ms.map (neutral ids)) =
      misplacedResults (toolUseIndex ms) ms := by
  rw [misplacedResults, misplacedResults]
  refine flatMap_zipIdx_neutral (f := fun m i => if m.role = .user then
    m.content.blockList.filterMap (misplaced? (toolUseIndex ms) i) else []) fun i m _ => ?_
  rw [role_neutral, blockList_neutral, filterMap_map]
  split
  · rename_i hr
    rw [hr]
    exact filterMap_congr fun b _ => misplaced?_neutralBlock (fun _ _ => h.of_lookup) i b
  · rfl

variable {sources : List (ℕ × String)}

theorem stripMisplaced_neutral (hsources : ∀ p ∈ sources, p.2 ∈ ids) (j : ℕ) (m : Message) :
    stripMisplaced sources j (neutral ids m) = neutral ids (stripMisplaced sources j m) := by
  have hkeep : ∀ b, keepResult (fun id => decide ((j, id) ∉ sources)) (neutralBlock ids .user b) =
      keepResult (fun id => decide ((j, id) ∉ sources)) b := by
    intro b
    cases b with
    | toolResult id content isError =>
      by_cases hid : id ∈ ids
      · simp [neutralBlock, inRole, hid]
      · have hnot : (j, id) ∉ sources := fun hmem => hid (hsources _ hmem)
        simp [neutralBlock, inRole, hid, keepResult, ContentBlock.toolResultId?, hnot]
    | _ => simp [neutralBlock, inRole, keepResult, ContentBlock.toolResultId?]
  obtain ⟨r, c⟩ := m
  cases c with
  | text s => cases r <;> rfl
  | blocks bs =>
    cases r with
    | user =>
      simp only [neutral, stripMisplaced, filter_map, Function.comp_def, hkeep]
    | _ => rfl

theorem removeMisplaced_neutral (hsources : ∀ p ∈ sources, p.2 ∈ ids) (ms : List Message) :
    removeMisplaced sources (ms.map (neutral ids)) =
      (removeMisplaced sources ms).map (neutral ids) := by
  apply ext_getElem?
  intro j
  rw [getElem?_removeMisplaced, getElem?_map, getElem?_map, getElem?_removeMisplaced,
    Option.map_map, Option.map_map]
  exact Option.map_congr fun m _ => stripMisplaced_neutral hsources j m

theorem retainNonEmpty_neutral (ms : List Message) :
    retainNonEmpty (ms.map (neutral ids)) = (retainNonEmpty ms).map (neutral ids) := by
  simp [retainNonEmpty, filter_map, Function.comp_def]

def ResultsFor (ids : List String) (bs : List ContentBlock) : Prop :=
  ∀ b ∈ bs, ∃ x ∈ ids, b.toolResultId? = some x

variable {bs : List ContentBlock}

theorem ResultsFor.map_neutralBlock (h : ResultsFor ids bs) :
    bs.map (neutralBlock ids .user) = bs := by
  conv_rhs => rw [← map_id bs]
  refine map_congr_left fun b hb => ?_
  obtain ⟨x, hx, hbx⟩ := h b hb
  cases b with
  | toolResult id content isError =>
    cases hbx
    simp [neutralBlock, inRole, hx]
  | _ => cases hbx

theorem ResultsFor.attachBlocks_neutral (h : ResultsFor ids bs) (ms : List Message) :
    (attachBlocks bs ms).map (neutral ids) = attachBlocks bs (ms.map (neutral ids)) := by
  have hnew : neutral ids ⟨.user, .blocks bs⟩ = ⟨.user, .blocks bs⟩ := by
    simp only [neutral, h.map_neutralBlock]
  cases ms with
  | nil => simp only [attachBlocks, map_cons, map_nil, hnew]
  | cons m ms =>
    simp only [attachBlocks, map_cons, role_neutral]
    split
    · rename_i hr
      rw [map_cons, toBlocks_neutral]
      simp only [neutral, map_append, hr, h.map_neutralBlock]
    · rw [map_cons, hnew, map_cons]

theorem foldl_reinsert_neutral (positions : Table ℕ ℕ) {groups : List (ℕ × List ContentBlock)} :
    ∀ {ms : List Message}, (∀ g ∈ groups, ResultsFor ids g.2) →
      (groups.foldl (reinsert positions) ms).map (neutral ids) =
        groups.foldl (reinsert positions) (ms.map (neutral ids)) := by
  induction groups with
  | nil => intro ms _; rfl
  | cons g groups ih =>
    intro ms h
    rw [forall_mem_cons] at h
    rw [foldl_cons, foldl_cons, ih h.2]
    congr 1
    simp only [reinsert]
    split
    · rw [attachAfter, attachAfter, map_append, h.1.attachBlocks_neutral, map_take, map_drop]
    · rfl

/-- **Reordering does not see blocks in the wrong role.** -/
theorem UsesIn.reorder_neutral (h : UsesIn ids ms) :
    (reorderToolResults (ms.map (neutral ids))).1 =
      (reorderToolResults ms).1.map (neutral ids) := by
  have hsources : ∀ p ∈ misplacedSources ms, p.2 ∈ ids := by
    intro p hp
    obtain ⟨q, hq, rfl⟩ := mem_map.mp hp
    obtain ⟨-, -, -, -, -, hindex, -⟩ := mem_misplacedResults.mp hq
    exact h.of_lookup hindex
  have hgroups : ∀ g ∈ (misplacedGroups ms).sortedDesc, ResultsFor ids g.2 := by
    intro g hg b hb
    obtain ⟨honly, -, hids⟩ := of_lookup_misplacedGroups (Table.mem_sortedDesc.mp hg)
    obtain ⟨x, hx⟩ := honly b hb
    exact ⟨x, h.of_lookup (hids x (mem_filterMap.mpr ⟨b, hb, hx⟩)), hx⟩
  have hmisplaced := h.misplacedResults_neutral
  have hremaining : remainingHistory (ms.map (neutral ids)) =
      (remainingHistory ms).map (neutral ids) := by
    rw [remainingHistory, misplacedSources, toolUseIndex_neutral, hmisplaced, ← misplacedSources,
      removeMisplaced_neutral hsources, retainNonEmpty_neutral, ← remainingHistory]
  rw [reorderToolResults_eq_ite, reorderToolResults_eq_ite, toolUseIndex_neutral, hmisplaced]
  split
  · rfl
  · rw [hremaining, currentAssistantPositions_neutral, foldl_reinsert_neutral _ hgroups,
      misplacedGroups, toolUseIndex_neutral, hmisplaced, ← misplacedGroups]

end AlloyAgent.SessionRepair
