import AlloyAgent.ToolPairing

/-!
# The tool results of a history, as a list of texts

Several passes of the runtime shorten tool results in place and leave everything else alone.

* `eq_of_emptied`: the list and the rest make up the history;
* `map_rewriteResults`: so a pass is a function of lists.
-/

namespace AlloyAgent

open List

/-- A tool result without its content; the other blocks stay. -/
def ContentBlock.emptied : ContentBlock → ContentBlock
  | toolResult id _ isError => toolResult id "" isError
  | b => b

namespace Message

def emptied (m : Message) : Message :=
  match m.content with
  | .blocks bs => ⟨m.role, .blocks (bs.map ContentBlock.emptied)⟩
  | .text _ => m

def resultContents (m : Message) : List String :=
  m.content.blockList.filterMap (·.toolResultContent?)

theorem toolResults_cons (m : Message) (ms : List Message) :
    toolResults (m :: ms) = m.resultContents ++ toolResults ms := rfl

/-! ## A history is its contents and the rest -/

theorem length_filterMap_emptied : ∀ (bs : List ContentBlock),
    ((bs.map ContentBlock.emptied).filterMap (·.toolResultContent?)).length =
      (bs.filterMap (·.toolResultContent?)).length := by
  intro bs
  induction bs with
  | nil => rfl
  | cons b bs ih =>
    cases b with
    | toolResult id content isError => exact congrArg (· + 1) ih
    | _ => exact ih

theorem length_resultContents_emptied (m : Message) :
    m.emptied.resultContents.length = m.resultContents.length := by
  obtain ⟨r, c⟩ := m
  cases c with
  | text t => rfl
  | blocks bs => exact length_filterMap_emptied bs

/-- Lists are equal if their images are, and what is read of them. -/
theorem eq_of_map_of_flatMap {α β γ : Type} {f : α → β} {g : α → List γ}
    (hlen : ∀ a b, f a = f b → (g a).length = (g b).length)
    (hinj : ∀ a b, f a = f b → g a = g b → a = b) :
    ∀ {l l' : List α}, l.map f = l'.map f → l.flatMap g = l'.flatMap g → l = l' := by
  intro l
  induction l with
  | nil =>
    intro l' h _
    exact (map_eq_nil_iff.mp h.symm).symm
  | cons a l ih =>
    intro l' h hread
    cases l' with
    | nil => cases h
    | cons b l' =>
      obtain ⟨hab, hl⟩ := List.cons.inj h
      rw [flatMap_cons, flatMap_cons] at hread
      obtain ⟨hfirst, hrest⟩ := append_inj hread (hlen a b hab)
      rw [hinj a b hab hfirst, ih hl hrest]

theorem blocks_eq_of_emptied {bs bs' : List ContentBlock}
    (h : bs.map ContentBlock.emptied = bs'.map ContentBlock.emptied)
    (hcontents : bs.filterMap (·.toolResultContent?) = bs'.filterMap (·.toolResultContent?)) :
    bs = bs' := by
  rw [filterMap_eq_flatMap_toList, filterMap_eq_flatMap_toList] at hcontents
  refine eq_of_map_of_flatMap (fun b b' hb => ?_) (fun b b' hb hread => ?_) h hcontents
  · cases b <;> cases b' <;> cases hb <;> rfl
  · cases b <;> cases b' <;> cases hb <;> cases hread <;> rfl

theorem message_eq_of_emptied {m m' : Message} (h : m.emptied = m'.emptied)
    (hcontents : m.resultContents = m'.resultContents) : m = m' := by
  obtain ⟨r, c⟩ := m
  obtain ⟨r', c'⟩ := m'
  cases c with
  | text t =>
    cases c' with
    | text t' => exact h
    | blocks bs' => cases h
  | blocks bs =>
    cases c' with
    | text t' => cases h
    | blocks bs' =>
      obtain ⟨rfl, hbs⟩ := Message.mk.inj h
      rw [blocks_eq_of_emptied (MessageContent.blocks.inj hbs) hcontents]

/-- **The contents and the rest** determine a history. -/
theorem eq_of_emptied {ms ms' : List Message} (h : ms.map emptied = ms'.map emptied)
    (hcontents : toolResults ms = toolResults ms') : ms = ms' := by
  refine eq_of_map_of_flatMap (fun m m' hm => ?_) (fun _ _ => message_eq_of_emptied) h hcontents
  rw [← length_resultContents_emptied m, hm, length_resultContents_emptied]

/-! ## Rewriting the contents -/

section

variable {σ : Type}

theorem map_rewriteBlocks (f : String → StateT σ Option String) (bs : List ContentBlock) :
    (fun bs' => bs'.filterMap ContentBlock.toolResultContent?) <$> bs.mapM (rewriteBlock f) =
      (bs.filterMap (·.toolResultContent?)).mapM f := by
  induction bs with
  | nil => simp
  | cons b bs ih =>
    rw [mapM_cons]
    cases b with
    | toolResult id content isError =>
      have hcons : (ContentBlock.toolResult id content isError :: bs).filterMap
          (·.toolResultContent?) = content :: bs.filterMap (·.toolResultContent?) := rfl
      rw [hcons, mapM_cons, ← ih]
      simp only [rewriteBlock, bind_pure_comp, bind_map_left, map_bind, Functor.map_map]
      rfl
    | _ =>
      simp only [rewriteBlock, bind_pure_comp, pure_bind, Functor.map_map]
      exact ih

theorem map_rewriteMessage (f : String → StateT σ Option String) (m : Message) :
    resultContents <$> rewriteMessage f m = m.resultContents.mapM f := by
  obtain ⟨r, c⟩ := m
  cases c with
  | text t => rfl
  | blocks bs =>
    have hblocks := map_rewriteBlocks f bs
    simp only [rewriteMessage, bind_pure_comp, Functor.map_map]
    exact hblocks

/-- **Rewriting the tool results** of a history rewrites the list of their contents. -/
theorem map_rewriteResults (f : String → StateT σ Option String) (ms : List Message) :
    toolResults <$> rewriteResults f ms = (toolResults ms).mapM f := by
  induction ms with
  | nil => rfl
  | cons m ms ih =>
    rw [toolResults_cons, mapM_append, ← map_rewriteMessage, ← ih, rewriteResults,
      mapM_cons]
    simp only [bind_pure_comp, bind_map_left, map_bind, Functor.map_map, toolResults_cons]
    rfl

variable {f : String → StateT σ Option String} {s s' : σ}

theorem emptied_of_rewriteMessage (h : rewriteMessage f m s = some (m', s')) :
    m.emptied = m'.emptied := by
  obtain ⟨r, c⟩ := m
  cases c with
  | text t =>
    cases h
    rfl
  | blocks bs =>
    obtain ⟨⟨bs', s₁⟩, hbs, h⟩ := Option.bind_eq_some_iff.mp h
    cases h
    have hsame : List.Forall₂ (fun b b' => b.emptied = b'.emptied) bs bs' := by
      refine forall₂_of_mapM (fun b s b' s' hb => ?_) hbs
      cases b with
      | toolResult id content isError =>
        obtain ⟨⟨content', s₂⟩, -, hb⟩ := Option.bind_eq_some_iff.mp hb
        cases hb
        rfl
      | _ =>
        cases hb
        rfl
    have hmap : bs.map ContentBlock.emptied = bs'.map ContentBlock.emptied := by
      rw [← forall₂_eq_eq_eq, forall₂_map_left_iff, forall₂_map_right_iff]
      exact hsame
    simp only [emptied, hmap]

/-- Rewriting changes only the tool results, from the oldest to the newest. -/
theorem rewriteResults_eq_some (h : rewriteResults f ms s = some (ms', s')) :
    ms'.map emptied = ms.map emptied ∧
      (toolResults ms).mapM f s = some (toolResults ms', s') := by
  constructor
  · have hsame : List.Forall₂ (fun m m' => m.emptied = m'.emptied) ms ms' :=
      forall₂_of_mapM (f := rewriteMessage f) (fun _ _ _ _ hm => emptied_of_rewriteMessage hm) h
    symm
    rw [← forall₂_eq_eq_eq, forall₂_map_left_iff, forall₂_map_right_iff]
    exact hsame
  · rw [← map_rewriteResults]
    exact Option.bind_eq_some_iff.mpr ⟨_, h, rfl⟩

theorem exists_rewriteResults (h : (toolResults ms).mapM f s = some (cs, s')) :
    ∃ ms', rewriteResults f ms s = some (ms', s') ∧ toolResults ms' = cs := by
  rw [← map_rewriteResults] at h
  obtain ⟨⟨ms', s₁⟩, hms, h⟩ := Option.bind_eq_some_iff.mp h
  cases h
  exact ⟨ms', hms, rfl⟩

end

end Message

end AlloyAgent
