import Mathlib.Data.Set.Basic
import AlloyAgent.ContextGuard

/-!
# For which texts the truncations do not abort

The truncation of a new result and the context guard slice texts at offsets that depend on the
context window only.

* `cuts_succeed_iff`: the texts with which all slices succeed.
-/

namespace AlloyAgent.ContextBudget

open List Option Message RustStr

/-- The offsets at which a text is sliced, for one window or another, are boundaries. -/
def Sliceable (s : String) : Prop :=
  (∀ window < 2 ^ 64, (new window).perResultCap < s.utf8ByteSize →
    CapCuttable s (new window).perResultCap) ∧
  (∀ window < 2 ^ 64, (new window).singleResultMax < s.utf8ByteSize →
    Cuttable s (new window).singleResultMax) ∧
  (compactTarget < s.utf8ByteSize → Cuttable s compactTarget)

/-- What the guard makes of a text: it stays, or a beginning of it is left, with a marker. -/
def Shortened (c d : String) : Prop :=
  d = c ∨ ∃ head rest n, c = head ++ rest ∧ d = head ++ compactedMarker n head.utf8ByteSize

section

variable {c d e : String} {maxChars : ℕ}

theorem exists_long_head (h : Cut maxChars c d) (hc : c.utf8ByteSize < 2 ^ 63)
    (hd : compactTarget < d.utf8ByteSize) :
    ∃ head rest marker, c = head ++ rest ∧ d = head ++ marker ∧ 1920 ≤ head.utf8ByteSize := by
  obtain ⟨head, rest, hsplit, rfl, -, -⟩ := h
  refine ⟨head, rest, _, hsplit, rfl, ?_⟩
  by_contra hshort
  have hmarker := @size_compactedMarker c.utf8ByteSize head.utf8ByteSize 19 4 (by decide)
    (by omega) (by decide) (by omega)
  rw [String.utf8ByteSize_append, compactTarget] at hd
  omega

theorem cuttable_of_cut (h : Cut maxChars c d) (hc : c.utf8ByteSize < 2 ^ 63)
    (hd : compactTarget < d.utf8ByteSize) (hcut : Cuttable c compactTarget) :
    Cuttable d compactTarget := by
  obtain ⟨head, rest, marker, rfl, rfl, hlong⟩ := exists_long_head h hc hd
  rw [utf8ByteSize_eq] at hlong
  obtain ⟨hstart, hstop⟩ := hcut
  rw [String.toList_append] at hstart hstop
  rw [Cuttable, String.toList_append]
  exact ⟨(hstart.of_append (Nat.le_trans (by decide) hlong)).append_right _,
    (hstop.of_append hlong).append_right _⟩

theorem Cut.shortened (h : Cut maxChars c d) : Shortened c d := by
  obtain ⟨head, rest, hsplit, hd, -, -⟩ := h
  exact .inr ⟨head, rest, _, hsplit, hd⟩

theorem shortened_of_truncateTo (h : truncateTo c maxChars = some d) : Shortened c d := by
  by_cases hle : c.utf8ByteSize ≤ maxChars
  · rw [truncateTo_of_le hle] at h
    exact .inl (some.inj h).symm
  · exact (cut_of_truncateTo (Nat.lt_of_not_le hle) h).shortened

theorem shortened_of_two_cuts (h : Cut maxChars c d) (hc : c.utf8ByteSize < 2 ^ 63)
    (hd : compactTarget < d.utf8ByteSize) (hcut : Cut compactTarget d e) : Shortened c e := by
  obtain ⟨head, rest, marker, rfl, rfl, hlong⟩ := exists_long_head h hc hd
  obtain ⟨head', rest', hsplit, rfl, -, hshort⟩ := hcut
  have hlists : head'.toList ++ rest'.toList = head.toList ++ marker.toList := by
    rw [← String.toList_append, ← String.toList_append, hsplit]
  have hle : utf8Len head'.toList ≤ utf8Len head.toList := by
    rw [← utf8ByteSize_eq, ← utf8ByteSize_eq]
    exact Nat.le_trans hshort hlong
  obtain ⟨t, ht⟩ := prefix_of_utf8Len_le hlists hle
  refine .inr ⟨head', String.ofList t ++ rest, _, ?_, rfl⟩
  apply String.toList_injective
  rw [String.toList_append, String.toList_append, String.toList_append, String.toList_ofList, ht,
    append_assoc]

end

/-! ## Texts that can be sliced -/

theorem exists_pass : ∀ {entries : List (ℕ × String)} (total : ℕ),
    (∀ e ∈ entries, ∀ total, (pick total e.1 e.2).isSome = true) →
    ∃ contents, pass pick total entries = some contents := by
  intro entries
  induction entries with
  | nil => intro total _; exact ⟨[], rfl⟩
  | cons e entries ih =>
    intro total h
    obtain ⟨short, hshort⟩ := isSome_iff_exists.mp (h e mem_cons_self total)
    obtain ⟨others, hothers⟩ := ih (total - e.2.utf8ByteSize + short.utf8ByteSize)
      fun e' he' => h e' (mem_cons_of_mem e he')
    refine ⟨short :: others, ?_⟩
    rw [pass, hshort]
    simp only [bind, bind_some, hothers]
    rfl

theorem exists_rewriteResults_atLocation {visit : ℕ → String → StateT Guard Option String}
    {pick : Pick} (hvisit : Accounts visit pick) {ms : List Message}
    {entries : List (ℕ × String)} (k : ℕ) (hsnd : entries.map Prod.snd = toolResults ms)
    (h : ∀ e ∈ entries, ∀ total, (pick total e.1 e.2).isSome = true) :
    ∃ ms' g', rewriteResults (atLocation visit) ms
      ⟨size (toolResults ms), k, entries.map Prod.fst⟩ = some (ms', g') := by
  have hpass := mapM_atLocation hvisit entries 0 k []
  rw [hsnd, Nat.add_zero, append_nil] at hpass
  obtain ⟨contents, hcontents⟩ := exists_pass (size (toolResults ms)) h
  rcases hpass with ⟨hnone, -⟩ | ⟨contents', k', -, hsome⟩
  · rw [hcontents] at hnone
    cases hnone
  · obtain ⟨ms', hms, -⟩ := exists_rewriteResults hsome
    exact ⟨ms', _, hms⟩

section

variable {headroom singleMax : ℕ} {messages : List Message}

theorem exists_firstPass
    (h : ∀ c ∈ toolResults messages, singleMax < c.utf8ByteSize → Cuttable c singleMax) :
    ∃ mid g, firstPass singleMax messages = some (mid, g) := by
  rw [firstPass, start, locations, ← map_fst_noted]
  refine exists_rewriteResults_atLocation (accounts_capSingle singleMax) 0 (map_snd_noted _) ?_
  intro e he total
  obtain ⟨c, hc, rfl⟩ := mem_map.mp he
  rw [pickSingle]
  split_ifs with hlt
  · exact (truncateTo_isSome hlt).mpr (h c hc hlt)
  · rfl

theorem exists_secondPass {mid : List Message} {g : Guard}
    (hone : List.Forall₂ (fun c d => truncateTo c singleMax = some d) (toolResults messages)
      (toolResults mid))
    (htotal : g.totalChars = size (toolResults mid))
    (hlen : ∀ c ∈ toolResults messages, c.utf8ByteSize < 2 ^ 63)
    (h : ∀ c ∈ toolResults messages, compactTarget < c.utf8ByteSize → Cuttable c compactTarget) :
    ∃ messages' g', secondPass headroom messages mid g = some (messages', g') := by
  have hlength := hone.length_eq.symm
  rw [secondPass, htotal, ← map_fst_staleEntries hlength]
  refine exists_rewriteResults_atLocation (accounts_compactOldest headroom) _
    (map_snd_staleEntries hlength) ?_
  intro e he total
  rw [pickOldest]
  split_ifs with hcut
  · -- the text as it was before the first pass
    rw [truncateTo_isSome hcut.2.2]
    have hmem : e.2 ∈ toolResults mid :=
      map_snd_staleEntries hlength ▸ mem_map_of_mem he
    obtain ⟨i, hi⟩ := mem_iff_getElem?.mp hmem
    obtain ⟨c, hc, htrunc⟩ := forall₂_getElem? hone.flip hi
    have hc := mem_of_getElem? hc
    have hlong : compactTarget < c.utf8ByteSize := by
      by_contra hle
      exact absurd (small_of_truncateTo htrunc (Nat.le_of_not_lt hle)) (Nat.not_le.mpr hcut.2.2)
    by_cases hle : c.utf8ByteSize ≤ singleMax
    · rw [truncateTo_of_le hle] at htrunc
      exact some.inj htrunc ▸ h c hc hlong
    · exact cuttable_of_cut (cut_of_truncateTo (Nat.lt_of_not_le hle) htrunc) (hlen c hc)
        hcut.2.2 (h c hc hlong)
  · rfl

end

/-! ## What is left of a text -/

section

variable {headroom singleMax : ℕ} {messages mid messages' : List Message} {g g' : Guard} {n : ℕ}

theorem shortened_of_passes
    (hone : List.Forall₂ (fun c d => truncateTo c singleMax = some d) (toolResults messages)
      (toolResults mid))
    (htotal : g.totalChars = size (toolResults mid))
    (hlen : ∀ c ∈ toolResults messages, c.utf8ByteSize < 2 ^ 63)
    (hsecond : secondPass headroom messages mid g = some (messages', g')) :
    List.Forall₂ Shortened (toolResults messages) (toolResults messages') := by
  have hlength := hone.length_eq.symm
  obtain ⟨-, hpass, -⟩ := secondPass_eq_some hlength htotal hsecond
  -- the second pass leaves a text or cuts it
  have htwo : List.Forall₂ (fun d e => e = d ∨ compactTarget < d.utf8ByteSize ∧
      Cut compactTarget d e) (toolResults mid) (toolResults messages') := by
    rw [← map_snd_staleEntries hlength, forall₂_map_left_iff]
    refine (forall₂_of_pass hpass).imp fun e short ⟨total, hshort⟩ => ?_
    rw [pickOldest] at hshort
    split_ifs at hshort with hcut
    · exact .inr ⟨hcut.2.2, cut_of_truncateTo hcut.2.2 hshort⟩
    · exact .inl (some.inj hshort).symm
  have hone' : List.Forall₂ (fun c d => c.utf8ByteSize < 2 ^ 63 ∧ truncateTo c singleMax = some d)
      (toolResults messages) (toolResults mid) :=
    (forall₂_and_left _ _).mpr ⟨hlen, hone⟩
  refine forall₂_comp ?_ hone' htwo
  rintro c d e ⟨hc, htrunc⟩ (rfl | ⟨hlong, hcut⟩)
  · exact shortened_of_truncateTo htrunc
  · by_cases hle : c.utf8ByteSize ≤ singleMax
    · rw [truncateTo_of_le hle] at htrunc
      cases htrunc
      exact hcut.shortened
    · exact shortened_of_two_cuts (cut_of_truncateTo (Nat.lt_of_not_le hle) htrunc) hc hlong hcut

theorem exists_contextGuard (hlen : ∀ c ∈ toolResults messages, c.utf8ByteSize < 2 ^ 63)
    (hsingle : ∀ c ∈ toolResults messages, singleMax < c.utf8ByteSize → Cuttable c singleMax)
    (htarget : ∀ c ∈ toolResults messages,
      compactTarget < c.utf8ByteSize → Cuttable c compactTarget) :
    ∃ messages' n, contextGuard headroom singleMax messages = some (messages', n) ∧
      List.Forall₂ Shortened (toolResults messages) (toolResults messages') := by
  rw [contextGuard]
  split_ifs with hfits
  · exact ⟨messages, 0, rfl, forall₂_same.mpr fun c _ => .inl rfl⟩
  · obtain ⟨mid, g, hfirst⟩ := exists_firstPass hsingle
    obtain ⟨-, hone, htotal⟩ := firstPass_eq_some hfirst
    obtain ⟨messages', g', hsecond⟩ := @exists_secondPass headroom _ _ _ _ hone htotal hlen htarget
    refine ⟨messages', g'.compacted, ?_, shortened_of_passes hone htotal hlen hsecond⟩
    rw [hfirst]
    simp only [bind, bind_some, hsecond]
    rfl

end

/-! ## Texts that cannot be sliced -/

def repeated (n : ℕ) (s : String) : List Message :=
  [⟨.user, .blocks (List.replicate n (.toolResult "" s false))⟩]

theorem toolResults_repeated (n : ℕ) (s : String) :
    toolResults (repeated n s) = List.replicate n s := by
  have hcontents : (repeated n s).flatMap resultContents = List.replicate n s := by
    simp [repeated, resultContents, MessageContent.blockList,
      ContentBlock.toolResultContent?]
  exact hcontents

theorem size_replicate (n : ℕ) (s : String) :
    size (List.replicate n s) = n * s.utf8ByteSize := by
  induction n with
  | zero => simp
  | succ n ih => rw [replicate_succ, size_cons, ih, Nat.succ_mul, Nat.add_comm]

section

variable {n : ℕ} {s : String}

theorem passes_of_contextGuard (hover : headroom < n * s.utf8ByteSize)
    (h : contextGuard headroom singleMax (repeated n s) = some result) :
    ∃ d, truncateTo s singleMax = some d ∧
      (d = s → compactTarget < s.utf8ByteSize → (truncateTo s compactTarget).isSome = true) := by
  rw [contextGuard, toolResults_repeated, size_replicate, if_neg (Nat.not_le.mpr hover)] at h
  obtain ⟨⟨mid, g⟩, hfirst, h⟩ := bind_eq_some_iff.mp h
  obtain ⟨⟨final, g'⟩, hsecond, -⟩ := bind_eq_some_iff.mp h
  obtain ⟨-, hone, htotal⟩ := firstPass_eq_some hfirst
  obtain ⟨-, hpass, -⟩ := secondPass_eq_some hone.length_eq.symm htotal hsecond
  obtain ⟨n, rfl⟩ : ∃ k, n = k + 1 := by
    cases n with
    | zero => simp at hover
    | succ k => exact ⟨k, rfl⟩
  rw [toolResults_repeated, replicate_succ] at hone
  cases hmid : toolResults mid with
  | nil =>
    rw [hmid] at hone
    cases hone
  | cons d ds =>
    rw [hmid] at hone
    obtain ⟨hd, hds⟩ := forall₂_cons.mp hone
    refine ⟨d, hd, ?_⟩
    rintro rfl hlong
    -- the first pass has changed nothing, so that the second one finds the same total
    have hsame : ds = List.replicate n d := by
      refine eq_replicate_iff.mpr ⟨by rw [← hds.length_eq, length_replicate], ?_⟩
      intro e he
      obtain ⟨i, hi⟩ := mem_iff_getElem?.mp he
      obtain ⟨c, hc, htrunc⟩ := forall₂_getElem? hds.flip hi
      obtain rfl := eq_of_mem_replicate (mem_of_getElem? hc)
      exact some.inj (htrunc.symm.trans hd)
    rw [staleEntries, locations, toolResults_repeated, hmid, hsame, ← replicate_succ,
      size_replicate, replicate_succ, map_cons, zip_cons_cons] at hpass
    obtain ⟨short, hshort, -⟩ := bind_eq_some_iff.mp hpass
    rw [pickOldest, if_pos ⟨hover, hlong, hlong⟩] at hshort
    exact isSome_of_eq_some hshort

end

/-- **Which texts can be sliced**: all offsets that are used are boundaries. -/
theorem cuts_succeed_iff (A : Set String) (hA : ∀ s ∈ A, s.utf8ByteSize < 2 ^ 63) :
    (∀ window < 2 ^ 64,
      (∀ s ∈ A, ∃ result, truncateToolResultDynamic s (new window) = some result ∧
        (result = s ∨ ∃ head rest, s = head ++ rest ∧
          result = head ++ truncatedMarker (new window) s.utf8ByteSize head.utf8ByteSize)) ∧
      ∀ messages, (∀ s ∈ toolResults messages, s ∈ A) →
        ∃ messages' n, applyContextGuard messages (new window) = some (messages', n) ∧
          List.Forall₂ Shortened (toolResults messages) (toolResults messages')) ↔
    ∀ s ∈ A, Sliceable s := by
  constructor
  · intro h s hs
    -- a history of this text that does not fit
    have hguard (window : ℕ) (hwindow : window < 2 ^ 64) (hpos : 0 < s.utf8ByteSize) :=
      (h window hwindow).2 (repeated ((new window).totalToolHeadroomChars + 1) s) fun c hc => by
        rw [toolResults_repeated] at hc
        exact eq_of_mem_replicate hc ▸ hs
    have hover (window : ℕ) (hpos : 0 < s.utf8ByteSize) :
        (new window).totalToolHeadroomChars <
          ((new window).totalToolHeadroomChars + 1) * s.utf8ByteSize :=
      Nat.lt_of_lt_of_le (Nat.lt_succ_self _) (Nat.le_mul_of_pos_right _ hpos)
    refine ⟨?_, ?_, ?_⟩
    · intro window hwindow
      obtain ⟨result, hresult, -⟩ := (h window hwindow).1 s hs
      exact truncateToolResultDynamic_isSome.mp (isSome_of_eq_some hresult)
    · intro window hwindow hlt
      have hpos : 0 < s.utf8ByteSize := Nat.lt_of_le_of_lt (Nat.zero_le _) hlt
      obtain ⟨messages', n, hrun, -⟩ := hguard window hwindow hpos
      obtain ⟨d, hd, -⟩ := passes_of_contextGuard (hover window hpos) hrun
      exact (truncateTo_isSome hlt).mp (isSome_of_eq_some hd)
    · intro hlt
      -- the limit for a single result of this window is above any length
      have hpos : 0 < s.utf8ByteSize := Nat.lt_of_le_of_lt (Nat.zero_le _) hlt
      obtain ⟨messages', n, hrun, -⟩ := hguard (2 ^ 63) (by decide) hpos
      have hmax : (new (2 ^ 63)).singleResultMax = 2 ^ 63 := by decide
      obtain ⟨d, hd, htwo⟩ := passes_of_contextGuard (hover (2 ^ 63) hpos) hrun
      rw [hmax, truncateTo_of_le (Nat.le_of_lt (hA s hs))] at hd
      exact (truncateTo_isSome hlt).mp (htwo (some.inj hd).symm hlt)
  · intro h window hwindow
    constructor
    · intro s hs
      obtain ⟨result, hresult⟩ := isSome_iff_exists.mp
        (truncateToolResultDynamic_isSome.mpr ((h s hs).1 window hwindow))
      exact ⟨result, hresult, truncateToolResultDynamic_eq_some hresult⟩
    · intro messages hmessages
      exact exists_contextGuard (fun c hc => hA c (hmessages c hc))
        (fun c hc => (h c (hmessages c hc)).2.1 window hwindow)
        (fun c hc => (h c (hmessages c hc)).2.2)

theorem sliceable_of_ascii (hs : ∀ c ∈ s.toList, c.utf8Size = 1) : Sliceable s := by
  have hboundary {k n : ℕ} (hk : k ≤ n) (hlt : n < s.utf8ByteSize) : Boundary s.toList k :=
    boundary_of_ascii hs (by rw [← utf8ByteSize_eq]; omega)
  refine ⟨fun window _ hlt => ⟨?_, ?_, fun _ => ?_⟩, fun window _ hlt => ⟨?_, ?_⟩,
    fun hlt => ⟨?_, ?_⟩⟩
  all_goals apply hboundary _ hlt; omega

/-- A text in ASCII, in a window of 8 tokens. -/
theorem hello_cuts_succeed :
    (∃ result, truncateToolResultDynamic "hello, world" (new 8) = some result ∧
      (result = "hello, world" ∨ ∃ head rest, "hello, world" = head ++ rest ∧
        result = head ++ truncatedMarker (new 8) 12 head.utf8ByteSize)) ∧
    ∃ messages' n, applyContextGuard (repeated 2 "hello, world") (new 8) = some (messages', n) ∧
      List.Forall₂ Shortened ["hello, world", "hello, world"] (toolResults messages') := by
  have hascii : ∀ c ∈ "hello, world".toList, c.utf8Size = 1 :=
    ascii_of_all (by decide)
  obtain ⟨htruncate, hguard⟩ := (cuts_succeed_iff {"hello, world"} (by
    rintro s rfl
    decide)).mpr (by
    rintro s rfl
    exact sliceable_of_ascii hascii) 8 (by decide)
  refine ⟨htruncate _ rfl, hguard (repeated 2 "hello, world") fun s hs => ?_⟩
  rw [toolResults_repeated] at hs
  exact eq_of_mem_replicate hs

/-- Euro signs have three bytes: the search for a newline starts inside a sign. -/
theorem euro_signs_abort :
    truncateToolResultDynamic (String.ofList (List.replicate 40001 '€')) (new 200000) = none ∧
      applyContextGuard (repeated 2 (String.ofList (List.replicate 70000 '€'))) (new 200000) =
        none := by
  have heuro : '€'.utf8Size = 3 := by decide
  have hsize (k : ℕ) : (String.ofList (List.replicate k '€')).utf8ByteSize = k * 3 := by
    rw [utf8ByteSize_ofList, utf8Len_replicate, heuro]
  have hboundary {k n : ℕ} (h : Boundary (String.ofList (List.replicate k '€')).toList n) :
      3 ∣ n := by
    rw [String.toList_ofList] at h
    exact heuro ▸ dvd_of_boundary_replicate h
  have hcap : (new 200000).perResultCap = 120000 := by decide
  have hmax : (new 200000).singleResultMax = 200000 := by decide
  have hheadroom : (new 200000).totalToolHeadroomChars = 300000 := by decide
  constructor
  · rw [← not_isSome_iff_eq_none, truncateToolResultDynamic_isSome, hcap, hsize]
    intro h
    exact absurd (hboundary (h (by decide)).1) (by decide)
  · rw [applyContextGuard_eq, hmax, hheadroom, eq_none_iff_forall_ne_some]
    intro result hresult
    obtain ⟨d, hd, -⟩ := passes_of_contextGuard (by rw [hsize]; decide) hresult
    have hcut := (truncateTo_isSome (by rw [hsize]; decide)).mp (isSome_of_eq_some hd)
    exact absurd (hboundary hcut.1) (by decide)

end AlloyAgent.ContextBudget
