import AlloyAgent.ContextCuts
import AlloyAgent.ToolResults

/-!
# The context guard

`apply_context_guard` goes over the tool results of a history twice and keeps their total length in
a variable.

* `mapM_atLocation`: a pass over the texts keeps the total right;
* `passTwo_spec`: the oldest results are cut, for as long as that is necessary;
* `contextGuard_spec`: the two passes together.
-/

namespace AlloyAgent.ContextBudget

open List Message RustStr

def size (contents : List String) : ℕ := (contents.map String.utf8ByteSize).sum

@[simp] theorem size_nil : size [] = 0 := rfl

@[simp] theorem size_cons (c : String) (cs : List String) :
    size (c :: cs) = c.utf8ByteSize + size cs := rfl

@[simp] theorem size_append (cs ds : List String) : size (cs ++ ds) = size cs + size ds := by
  rw [size, map_append, sum_append]
  rfl

def locations (messages : List Message) : List ℕ := (toolResults messages).map String.utf8ByteSize

def start (messages : List Message) : Guard :=
  ⟨size (toolResults messages), 0, locations messages⟩

def firstPass (singleMax : ℕ) (messages : List Message) : Option (List Message × Guard) :=
  rewriteResults (atLocation (capSingle singleMax)) messages (start messages)

/-- The second pass; it uses the lengths at the beginning again. -/
def secondPass (headroom : ℕ) (messages mid : List Message) (g : Guard) :
    Option (List Message × Guard) :=
  rewriteResults (atLocation (compactOldest headroom)) mid
    { g with locations := locations messages }

def contextGuard (headroom singleMax : ℕ) (messages : List Message) : Option (List Message × ℕ) :=
  if size (toolResults messages) ≤ headroom then some (messages, 0)
  else do
    let (mid, g) ← firstPass singleMax messages
    let (messages', g) ← secondPass headroom messages mid g
    return (messages', g.compacted)

theorem applyContextGuard_eq (messages : List Message) (budget : ContextBudget) :
    applyContextGuard messages budget =
      contextGuard budget.totalToolHeadroomChars budget.singleResultMax messages := rfl

/-! ## A pass on the list of contents -/

/-- What a visit makes of a result: from the total, the length at the beginning and the content. -/
abbrev Pick : Type := ℕ → ℕ → String → Option String

/-- A pass over lengths at the beginning and contents, without the places. -/
def pass (pick : Pick) : ℕ → List (ℕ × String) → Option (List String)
  | _, [] => some []
  | total, (charLen, content) :: rest => do
    let short ← pick total charLen content
    let others ← pass pick (total - content.utf8ByteSize + short.utf8ByteSize) rest
    return short :: others

/-- A visit does what `pick` says and corrects the total. -/
def Accounts (visit : ℕ → String → StateT Guard Option String) (pick : Pick) : Prop :=
  ∀ charLen content g, content.utf8ByteSize ≤ g.totalChars →
    (pick g.totalChars charLen content = none ∧ visit charLen content g = none) ∨
    ∃ short k, pick g.totalChars charLen content = some short ∧
      visit charLen content g =
        some (short, ⟨g.totalChars - content.utf8ByteSize + short.utf8ByteSize, k, g.locations⟩)

variable {visit : ℕ → String → StateT Guard Option String} {pick : Pick}

/-- **A pass keeps the total**: what is done, what is still to come, and the `rest`. -/
theorem mapM_atLocation (hvisit : Accounts visit pick) :
    ∀ (entries : List (ℕ × String)) (rest k : ℕ) (ls : List ℕ),
    (pass pick (size (entries.map Prod.snd) + rest) entries = none ∧
      (entries.map Prod.snd).mapM (atLocation visit)
        ⟨size (entries.map Prod.snd) + rest, k, entries.map Prod.fst ++ ls⟩ = none) ∨
    ∃ contents k', pass pick (size (entries.map Prod.snd) + rest) entries = some contents ∧
      (entries.map Prod.snd).mapM (atLocation visit)
        ⟨size (entries.map Prod.snd) + rest, k, entries.map Prod.fst ++ ls⟩ =
          some (contents, ⟨size contents + rest, k', ls⟩) := by
  intro entries
  induction entries with
  | nil => intro rest k ls; exact .inr ⟨[], k, rfl, rfl⟩
  | cons e entries ih =>
    intro rest k ls
    obtain ⟨charLen, content⟩ := e
    simp only [map_cons, cons_append, size_cons, pass, mapM_cons]
    generalize htotal : content.utf8ByteSize + size (entries.map Prod.snd) + rest = total
    rcases hvisit charLen content ⟨total, k, entries.map Prod.fst ++ ls⟩ (by dsimp only; omega) with
      ⟨hpick, hnone⟩ | ⟨short, k₁, hpick, hsome⟩
    · refine .inl ⟨?_, ?_⟩
      · rw [hpick]
        rfl
      · simp only [bind, StateT.bind, atLocation, hnone, Option.bind_none]
    · -- the total after this result
      have hnext : total - content.utf8ByteSize + short.utf8ByteSize =
          size (entries.map Prod.snd) + (short.utf8ByteSize + rest) := by omega
      simp only [hnext] at hsome
      simp only [hpick, hnext, bind, StateT.bind, atLocation, hsome, Option.bind_some]
      rcases ih (short.utf8ByteSize + rest) k₁ ls with ⟨hpass, hrun⟩ | ⟨contents, k', hpass, hrun⟩
      · refine .inl ⟨by rw [hpass]; rfl, by rw [hrun]; rfl⟩
      · refine .inr ⟨short :: contents, k', by rw [hpass]; rfl, ?_⟩
        rw [hrun, Option.bind_some, size_cons]
        simp only [Nat.add_left_comm, Nat.add_assoc]
        rfl

theorem forall₂_of_pass : ∀ {entries : List (ℕ × String)} {total : ℕ}
    {contents : List String}, pass pick total entries = some contents →
    List.Forall₂ (fun e short => ∃ total, pick total e.1 e.2 = some short) entries contents := by
  intro entries
  induction entries with
  | nil =>
    intro total contents h
    cases h
    exact .nil
  | cons e entries ih =>
    intro total contents h
    obtain ⟨short, hshort, h⟩ := Option.bind_eq_some_iff.mp h
    obtain ⟨others, hothers, h⟩ := Option.bind_eq_some_iff.mp h
    cases h
    exact .cons ⟨total, hshort⟩ (ih hothers)

/-- The running total is the length of the results visited, as they are now, and to come. -/
def Balanced (visit : ℕ → String → StateT Guard Option String) (contents : List String)
    (g : Guard) : Prop :=
  ∀ before after before' g', contents = before ++ after →
    before.mapM (atLocation visit) g = some (before', g') →
    g'.totalChars = size before' + size after ∧
      ∀ c ∈ after.head?, c.utf8ByteSize ≤ g'.totalChars

variable {g : Guard}

theorem balanced_of_accounts (hvisit : Accounts visit pick) (htotal : g.totalChars = size contents)
    (hlens : g.locations.length = contents.length) : Balanced visit contents g := by
  rintro before after before' g' rfl hrun
  obtain ⟨total, k, lens⟩ := g
  dsimp only at htotal hlens
  subst htotal
  rw [length_append] at hlens
  -- the places of the results that have been visited
  obtain ⟨ls, ls', rfl, hls⟩ : ∃ ls ls', lens = ls ++ ls' ∧ ls.length = before.length :=
    ⟨lens.take before.length, lens.drop before.length, (take_append_drop _ _).symm, by
      rw [length_take]; omega⟩
  have hsnd : (ls.zip before).map Prod.snd = before := map_snd_zip (by omega)
  have hfst : (ls.zip before).map Prod.fst = ls := map_fst_zip (by omega)
  have hpass := mapM_atLocation hvisit (ls.zip before) (size after) k ls'
  rw [hsnd, hfst, ← size_append] at hpass
  rcases hpass with ⟨-, hnone⟩ | ⟨contents, k', -, hsome⟩
  · rw [hnone] at hrun
    cases hrun
  · rw [hsome] at hrun
    cases hrun
    refine ⟨rfl, fun c hc => ?_⟩
    obtain ⟨rest, rfl⟩ : ∃ rest, after = c :: rest := head?_eq_some_iff.mp hc
    dsimp only
    rw [size_cons]
    omega

variable {maxChars : ℕ} {content : String}

theorem accounts_compact (content : String) (g : Guard)
    (hle : content.utf8ByteSize ≤ g.totalChars) :
    (truncateTo content maxChars = none ∧ compact maxChars content g = none) ∨
    ∃ short k, truncateTo content maxChars = some short ∧ compact maxChars content g =
      some (short, ⟨g.totalChars - content.utf8ByteSize + short.utf8ByteSize, k, g.locations⟩) := by
  cases hshort : truncateTo content maxChars with
  | none => exact .inl ⟨rfl, by rw [compact, hshort]; rfl⟩
  | some short =>
    refine .inr ⟨short, g.compacted + 1, rfl, ?_⟩
    rw [compact, hshort, Option.bind_eq_bind, Option.bind_some, guard, if_pos hle]
    rfl

theorem accounts_keep (hle : content.utf8ByteSize ≤ g.totalChars) :
    some (content, g) = some (content,
      ⟨g.totalChars - content.utf8ByteSize + content.utf8ByteSize, g.compacted, g.locations⟩) := by
  rw [Nat.sub_add_cancel hle]

def pickSingle (singleMax : ℕ) : Pick := fun _ charLen content =>
  if singleMax < charLen then truncateTo content singleMax else some content

def pickOldest (headroom : ℕ) : Pick := fun total charLen content =>
  if headroom < total ∧ compactTarget < charLen ∧ compactTarget < content.utf8ByteSize then
    truncateTo content compactTarget
  else some content

theorem accounts_capSingle (singleMax : ℕ) :
    Accounts (capSingle singleMax) (pickSingle singleMax) := by
  intro charLen content g hle
  rw [pickSingle, capSingle]
  split_ifs
  · exact accounts_compact content g hle
  · exact .inr ⟨content, g.compacted, rfl, accounts_keep hle⟩

theorem accounts_compactOldest (headroom : ℕ) :
    Accounts (compactOldest headroom) (pickOldest headroom) := by
  intro charLen content g hle
  rw [pickOldest, compactOldest]
  have hkeep := accounts_keep hle
  by_cases hover : headroom < g.totalChars
  · rw [if_neg (Nat.not_le.mpr hover)]
    by_cases hlong : compactTarget < charLen
    · rw [if_neg (Nat.not_le.mpr hlong)]
      by_cases hstill : compactTarget < content.utf8ByteSize
      · rw [if_pos hstill, if_pos ⟨hover, hlong, hstill⟩]
        exact accounts_compact content g hle
      · rw [if_neg hstill, if_neg fun h => hstill h.2.2]
        exact .inr ⟨content, g.compacted, rfl, hkeep⟩
    · rw [if_pos (Nat.le_of_not_lt hlong), if_neg fun h => hlong h.2.1]
      exact .inr ⟨content, g.compacted, rfl, hkeep⟩
  · rw [if_pos (Nat.le_of_not_lt hover), if_neg fun h => hover h.1]
    exact .inr ⟨content, g.compacted, rfl, hkeep⟩

def noted (contents : List String) : List (ℕ × String) :=
  contents.map fun c => (c.utf8ByteSize, c)

theorem map_snd_noted (contents : List String) : (noted contents).map Prod.snd = contents := by
  simp [noted, Function.comp_def]

theorem map_fst_noted (contents : List String) :
    (noted contents).map Prod.fst = contents.map String.utf8ByteSize := by
  simp [noted, Function.comp_def]

theorem passOne_spec (h : pass (pickSingle singleMax) total (noted contents) = some mid) :
    List.Forall₂ (fun c d => truncateTo c singleMax = some d) contents mid := by
  have hvisits := forall₂_of_pass h
  rw [noted, forall₂_map_left_iff] at hvisits
  refine hvisits.imp fun c d ⟨_, hd⟩ => ?_
  rw [pickSingle] at hd
  split_ifs at hd with hlt
  · exact hd
  · rw [truncateTo_of_le (Nat.le_of_not_lt hlt)]
    exact hd

/-- The second pass has looked at the result, and cut it if it was too long. -/
def Visited (e : ℕ × String) (short : String) : Prop :=
  (short = e.2 ∧ (e.1 ≤ compactTarget ∨ e.2.utf8ByteSize ≤ compactTarget)) ∨
    compactTarget < e.1 ∧ compactTarget < e.2.utf8ByteSize ∧
      truncateTo e.2 compactTarget = some short

theorem passTwo_of_le : ∀ {entries : List (ℕ × String)} {total : ℕ},
    size (entries.map Prod.snd) ≤ total → total ≤ headroom →
    pass (pickOldest headroom) total entries = some (entries.map Prod.snd) := by
  intro entries
  induction entries with
  | nil => intro total _ _; rfl
  | cons e entries ih =>
    intro total hsize hle
    obtain ⟨charLen, content⟩ := e
    rw [map_cons, size_cons] at hsize
    dsimp only at hsize
    rw [pass, pickOldest, if_neg fun h => Nat.not_le.mpr h.1 hle]
    simp only [bind, Option.bind_some]
    rw [ih (by omega) (by omega)]
    rfl

/-- **The second pass** works on a front of the results and leaves the others alone. -/
theorem passTwo_spec {headroom : ℕ} : ∀ {entries : List (ℕ × String)} {contents : List String}
    {rest : ℕ},
    pass (pickOldest headroom) (size (entries.map Prod.snd) + rest) entries = some contents →
    ∃ front front' back, entries = front ++ back ∧ contents = front' ++ back.map Prod.snd ∧
      List.Forall₂ Visited front front' ∧
      (back = [] ∨ size front' + size (back.map Prod.snd) + rest ≤ headroom) := by
  intro entries
  induction entries with
  | nil =>
    intro contents rest h
    cases h
    exact ⟨[], [], [], rfl, rfl, .nil, .inl rfl⟩
  | cons e entries ih =>
    intro contents rest h
    obtain ⟨charLen, content⟩ := e
    by_cases hover : headroom < size (((charLen, content) :: entries).map Prod.snd) + rest
    · obtain ⟨short, hshort, h⟩ := Option.bind_eq_some_iff.mp h
      obtain ⟨others, hothers, h⟩ := Option.bind_eq_some_iff.mp h
      cases h
      have hvisited : Visited (charLen, content) short := by
        rw [pickOldest] at hshort
        split_ifs at hshort with hcut
        · exact .inr ⟨hcut.2.1, hcut.2.2, hshort⟩
        · refine .inl ⟨(Option.some.inj hshort).symm, ?_⟩
          dsimp only
          omega
      have hnext : size (((charLen, content) :: entries).map Prod.snd) + rest -
          content.utf8ByteSize + short.utf8ByteSize =
          size (entries.map Prod.snd) + (short.utf8ByteSize + rest) := by
        rw [map_cons, size_cons]
        dsimp only
        omega
      rw [hnext] at hothers
      obtain ⟨front, front', back, rfl, rfl, hfront, hdone⟩ := ih hothers
      refine ⟨(charLen, content) :: front, short :: front', back, rfl, rfl,
        .cons hvisited hfront, hdone.imp_right fun hle => ?_⟩
      rw [size_cons]
      omega
    · rw [passTwo_of_le (by omega) (Nat.le_of_not_lt hover)] at h
      refine ⟨[], [], (charLen, content) :: entries, rfl, (Option.some.inj h).symm, .nil,
        .inr ?_⟩
      rw [size_nil]
      omega

/-! ## What the guard leaves -/

theorem rewriteResults_atLocation (hvisit : Accounts visit pick)
    (hsnd : entries.map Prod.snd = toolResults ms) (h : rewriteResults (atLocation visit) ms
      ⟨size (toolResults ms), k, entries.map Prod.fst⟩ = some (ms', g')) :
    ms'.map emptied = ms.map emptied ∧
      pass pick (size (toolResults ms)) entries = some (toolResults ms') ∧
      g'.totalChars = size (toolResults ms') := by
  obtain ⟨hrest, hrun⟩ := rewriteResults_eq_some h
  have hpass := mapM_atLocation hvisit entries 0 k []
  rw [hsnd, Nat.add_zero, append_nil] at hpass
  rcases hpass with ⟨-, hnone⟩ | ⟨contents, k', hpass, hsome⟩
  · rw [hnone] at hrun
    cases hrun
  · rw [hsome] at hrun
    cases hrun
    exact ⟨hrest, hpass, rfl⟩

theorem firstPass_eq_some (h : firstPass singleMax messages = some (mid, g)) :
    mid.map emptied = messages.map emptied ∧
      List.Forall₂ (fun c d => truncateTo c singleMax = some d) (toolResults messages)
        (toolResults mid) ∧
      g.totalChars = size (toolResults mid) := by
  rw [firstPass, start, locations, ← map_fst_noted] at h
  obtain ⟨hrest, hpass, htotal⟩ :=
    rewriteResults_atLocation (accounts_capSingle singleMax) (map_snd_noted _) h
  exact ⟨hrest, passOne_spec hpass, htotal⟩

/-- The results between the passes, with the lengths that were noted at the beginning. -/
def staleEntries (messages mid : List Message) : List (ℕ × String) :=
  (locations messages).zip (toolResults mid)

section

variable {singleMax headroom : ℕ} {messages mid messages' : List Message} {g g' : Guard}

section

variable (hlen : (toolResults mid).length = (toolResults messages).length)
include hlen

theorem map_snd_staleEntries : (staleEntries messages mid).map Prod.snd = toolResults mid :=
  map_snd_zip (by rw [locations, length_map, hlen])

theorem map_fst_staleEntries : (staleEntries messages mid).map Prod.fst = locations messages :=
  map_fst_zip (by rw [locations, length_map, hlen])

theorem secondPass_eq_some (htotal : g.totalChars = size (toolResults mid))
    (h : secondPass headroom messages mid g = some (messages', g')) :
    messages'.map emptied = mid.map emptied ∧
      pass (pickOldest headroom) (size (toolResults mid)) (staleEntries messages mid) =
        some (toolResults messages') ∧
      g'.totalChars = size (toolResults messages') := by
  rw [secondPass, htotal, ← map_fst_staleEntries hlen] at h
  exact rewriteResults_atLocation (accounts_compactOldest headroom) (map_snd_staleEntries hlen) h

end

end

theorem small_of_truncateTo (h : truncateTo c maxChars = some d)
    (hc : c.utf8ByteSize ≤ compactTarget) : d.utf8ByteSize ≤ compactTarget := by
  by_cases hle : c.utf8ByteSize ≤ maxChars
  · rw [truncateTo_of_le hle] at h
    exact Option.some.inj h ▸ hc
  · obtain ⟨head, rest, -, rfl, -, hhead⟩ := cut_of_truncateTo (Nat.lt_of_not_le hle) h
    rw [compactTarget] at hc ⊢
    have hmarker := @size_compactedMarker c.utf8ByteSize head.utf8ByteSize 4 4 (by decide)
      (by omega) (by decide) (by omega)
    rw [String.utf8ByteSize_append]
    omega

theorem size_lt_of_truncateTo (h : truncateTo c maxChars = some d) (hc : c.utf8ByteSize < 2 ^ 64) :
    d.utf8ByteSize < 10 ^ 20 := by
  by_cases hle : c.utf8ByteSize ≤ maxChars
  · rw [truncateTo_of_le hle] at h
    have hlt : c.utf8ByteSize < 10 ^ 20 := by omega
    exact Option.some.inj h ▸ hlt
  · exact (cut_of_truncateTo (Nat.lt_of_not_le hle) h).size_lt (Nat.lt_of_not_le hle) hc

theorem Visited.size_le (h : Visited e short)
    (hnoted : e.1 ≤ compactTarget → e.2.utf8ByteSize ≤ compactTarget)
    (hsize : e.2.utf8ByteSize < 10 ^ 20) : short.utf8ByteSize ≤ compactTarget := by
  rcases h with ⟨rfl, hle⟩ | ⟨-, hlong, hcut⟩
  · exact hle.elim hnoted id
  · exact (cut_of_truncateTo hlong hcut).size_le hsize

/-- In front of a result that was changed, every one longer than the target has been cut. -/
def OldestFirst (singleMax : ℕ) (contents mid final : List String) : Prop :=
  ∀ i j : ℕ, i < j → final[j]? ≠ mid[j]? → ∀ c d, contents[i]? = some c → mid[i]? = some d →
    (compactTarget < d.utf8ByteSize → ∃ e, final[i]? = some e ∧ Cut compactTarget d e) ∧
    (compactTarget < c.utf8ByteSize →
      Cut singleMax c d ∨ ∃ e, final[i]? = some e ∧ Cut compactTarget d e)

section

variable {singleMax headroom : ℕ} {messages mid : List Message} {final : List String}

theorem getElem?_staleEntries {i : ℕ} {c d : String} (hc : (toolResults messages)[i]? = some c)
    (hd : (toolResults mid)[i]? = some d) :
    (staleEntries messages mid)[i]? = some (c.utf8ByteSize, d) := by
  rw [staleEntries, getElem?_zip_eq_some, locations, getElem?_map, hc]
  exact ⟨rfl, hd⟩

section

variable (hone : List.Forall₂ (fun c d => truncateTo c singleMax = some d) (toolResults messages)
  (toolResults mid))
include hone

section

variable (hlen : ∀ c ∈ toolResults messages, c.utf8ByteSize < 2 ^ 64)
include hlen

theorem staleEntries_spec :
    ∀ e ∈ staleEntries messages mid,
      (e.1 ≤ compactTarget → e.2.utf8ByteSize ≤ compactTarget) ∧ e.2.utf8ByteSize < 10 ^ 20 := by
  intro e he
  obtain ⟨i, hi⟩ := mem_iff_getElem?.mp he
  obtain ⟨hfst, hsnd⟩ := getElem?_zip_eq_some.mp hi
  rw [locations, getElem?_map] at hfst
  obtain ⟨c, hc, hnoted⟩ := Option.map_eq_some_iff.mp hfst
  obtain ⟨d, hd, hcut⟩ := forall₂_getElem? hone hc
  obtain rfl : d = e.2 := Option.some.inj (hd.symm.trans hsnd)
  rw [← hnoted]
  exact ⟨small_of_truncateTo hcut, size_lt_of_truncateTo hcut (hlen c (mem_of_getElem? hc))⟩

section

variable (hpass : pass (pickOldest headroom) (size (toolResults mid)) (staleEntries messages mid) =
  some final)
include hpass

theorem fits_of_passTwo : size final ≤ headroom ∨ ∀ e ∈ final, e.utf8ByteSize ≤ compactTarget := by
  have hspec := staleEntries_spec hone hlen
  rw [← map_snd_staleEntries hone.length_eq.symm, ← Nat.add_zero (size _)] at hpass
  obtain ⟨front, front', back, hentries, rfl, hfront, hdone⟩ := passTwo_spec hpass
  rcases hdone with rfl | hle
  · right
    intro e he
    rw [map_nil, append_nil] at he
    obtain ⟨i, hi⟩ := mem_iff_getElem?.mp he
    obtain ⟨e', he', hvisited⟩ := forall₂_getElem? hfront.flip hi
    have hmem : e' ∈ staleEntries messages mid := by
      rw [hentries, append_nil]
      exact mem_of_getElem? he'
    exact Visited.size_le hvisited (hspec e' hmem).1 (hspec e' hmem).2
  · left
    rw [size_append]
    exact hle

theorem oldestFirst_of_passTwo :
    OldestFirst singleMax (toolResults messages) (toolResults mid) final := by
  have hspec := staleEntries_spec hone hlen
  have hmid := map_snd_staleEntries hone.length_eq.symm
  rw [← hmid, ← Nat.add_zero (size _)] at hpass
  obtain ⟨front, front', back, hentries, rfl, hfront, -⟩ := passTwo_spec hpass
  intro i j hij hchanged c d hc hd
  -- a result that has changed is in the front, and so are the older ones
  have hj : j < front.length := by
    by_contra hj
    apply hchanged
    rw [← hmid, hentries, map_append,
      getElem?_append_right (by rw [← hfront.length_eq]; omega),
      getElem?_append_right (by rw [length_map]; omega), length_map,
      hfront.length_eq]
  have hentry := getElem?_staleEntries hc hd
  have hstale := hspec _ (mem_of_getElem? hentry)
  rw [hentries, getElem?_append_left (by omega)] at hentry
  obtain ⟨e, he, hvisited⟩ := forall₂_getElem? hfront hentry
  rw [getElem?_append_left (by rw [← hfront.length_eq]; omega)]
  rcases hvisited with ⟨-, hshort⟩ | ⟨-, hlong, hcut⟩
  · have hd_le : d.utf8ByteSize ≤ compactTarget := hshort.elim hstale.1 id
    refine ⟨fun h => absurd hd_le (Nat.not_le.mpr h), fun h => .inl ?_⟩
    -- the first pass has cut this one
    obtain ⟨d', hd', htrunc⟩ := forall₂_getElem? hone hc
    obtain rfl : d' = d := Option.some.inj (hd'.symm.trans hd)
    refine cut_of_truncateTo (Nat.lt_of_not_le fun hle => ?_) htrunc
    rw [truncateTo_of_le hle] at htrunc
    cases htrunc
    exact absurd hd_le (Nat.not_le.mpr h)
  · have hcut := cut_of_truncateTo hlong hcut
    exact ⟨fun _ => ⟨e, he, hcut⟩, fun _ => .inr ⟨e, he, hcut⟩⟩

end

end

end

end

/-- **The context guard**: the total is right, results fit or are short, the oldest are cut. -/
theorem contextGuard_spec (headroom singleMax : ℕ) (messages : List Message)
    (hlen : ∀ c ∈ toolResults messages, c.utf8ByteSize < 2 ^ 64) :
    (∀ budget : ContextBudget, budget.totalToolHeadroomChars = headroom →
      budget.singleResultMax = singleMax →
      applyContextGuard messages budget = contextGuard headroom singleMax messages) ∧
    Balanced (capSingle singleMax) (toolResults messages) (start messages) ∧
    (∀ mid g, firstPass singleMax messages = some (mid, g) →
      Balanced (compactOldest headroom) (toolResults mid)
        { g with locations := locations messages }) ∧
    ∀ messages' n, contextGuard headroom singleMax messages = some (messages', n) →
      messages'.map emptied = messages.map emptied ∧
      (size (toolResults messages') ≤ headroom ∨
        ∀ c ∈ toolResults messages', c.utf8ByteSize ≤ compactTarget) ∧
      (headroom < size (toolResults messages) → ∃ mid g g',
        firstPass singleMax messages = some (mid, g) ∧
        secondPass headroom messages mid g = some (messages', g') ∧
        g'.totalChars = size (toolResults messages') ∧
        OldestFirst singleMax (toolResults messages) (toolResults mid)
          (toolResults messages')) := by
  refine ⟨?_, ?_, ?_, ?_⟩
  · rintro budget rfl rfl
    exact applyContextGuard_eq messages budget
  · exact balanced_of_accounts (accounts_capSingle singleMax) rfl (length_map _)
  · intro mid g hfirst
    obtain ⟨-, hone, htotal⟩ := firstPass_eq_some hfirst
    apply balanced_of_accounts (accounts_compactOldest headroom)
    · exact htotal
    · rw [← hone.length_eq]
      exact length_map _
  · intro messages' n h
    rw [contextGuard] at h
    split_ifs at h with hfits
    · cases h
      exact ⟨rfl, .inl hfits, fun hover => absurd hfits (Nat.not_le.mpr hover)⟩
    · obtain ⟨⟨mid, g⟩, hfirst, h⟩ := Option.bind_eq_some_iff.mp h
      obtain ⟨⟨final, g'⟩, hsecond, h⟩ := Option.bind_eq_some_iff.mp h
      cases h
      obtain ⟨hrest, hone, htotal⟩ := firstPass_eq_some hfirst
      obtain ⟨hrest', hpass, htotal'⟩ := secondPass_eq_some hone.length_eq.symm htotal hsecond
      refine ⟨hrest'.trans hrest, fits_of_passTwo hone hlen hpass, fun _ => ?_⟩
      exact ⟨mid, g, g', hfirst, hsecond, htotal', oldestFirst_of_passTwo hone hlen hpass⟩

/-- The second result is longer than the limit for a single one; nothing of it is kept. -/
theorem contextGuard_two_results :
    ∃ messages', applyContextGuard [⟨.user, .blocks [.toolResult "1" "the first result" false,
        .toolResult "2" "and a longer second result" false]⟩] (new 20) = some (messages', 1) ∧
      toolResults messages' =
        ["the first result", "\n\n[COMPACTED: 26 → 0 chars by context guard]"] ∧
      (size (toolResults messages') ≤ 30 ∨
        ∀ c ∈ toolResults messages', c.utf8ByteSize ≤ compactTarget) := by
  have hguard := (contextGuard_spec 30 20
    [⟨.user, .blocks [.toolResult "1" "the first result" false,
      .toolResult "2" "and a longer second result" false]⟩] (by decide)).2.2.2
    [⟨.user, .blocks [.toolResult "1" "the first result" false,
      .toolResult "2" "\n\n[COMPACTED: 26 → 0 chars by context guard]" false]⟩] 1 rfl
  exact ⟨_, rfl, rfl, hguard.2.1⟩

end AlloyAgent.ContextBudget
