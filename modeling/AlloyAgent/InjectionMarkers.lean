import AlloyAgent.LowerCase
import AlloyAgent.Outcome
import AlloyAgent.Redaction

/-!
# Injection markers

`strip_injection_markers` of `openfang-runtime/src/session_repair.rs` replaces phrases that are
known from prompt injections.

* `removeLoop_spec`: one marker is removed;
* `stripped_of_aligned`, `Tight.not_stripped`: texts for which that works, or does not;
* `stripped_pieces_iff`: the texts made of plain pieces for which it does.
-/

namespace AlloyAgent.InjectionMarkers

open List RustStr Redaction

def injectionMarkers : List (List Char) :=
  ["<|system|>", "<|im_start|>", "<|im_end|>", "### SYSTEM:", "### System Prompt:", "[SYSTEM]",
    "<<SYS>>", "<</SYS>>", "IGNORE PREVIOUS INSTRUCTIONS", "Ignore all previous instructions",
    "ignore the above", "disregard previous"].map String.toList

def placeholder : List Char := "[injection marker removed]".toList

inductive Failure where
  /-- a slice is out of range or ends inside a character -/
  | panic
  | outOfFuel
  deriving DecidableEq

def orPanic {α : Type} : Option α → Except Failure α
  | some a => .ok a
  | none => .error .panic

/-- The loop over the occurrences of one marker, for a number of rounds at most. -/
def removeLoop (result resultLower markerLower : List Char) (markerLen : ℕ) :
    ℕ → ℕ → List Char → Except Failure (List Char)
  | 0, _, _ => .error .outOfFuel
  | fuel + 1, searchPos, newResult => do
    let rest ← orPanic (dropBytes? searchPos resultLower)
    match splitOnce? markerLower rest with
    | some (before, _) =>
      let absPos := searchPos + utf8Len before
      let kept ← orPanic (slice? result searchPos absPos)
      removeLoop result resultLower markerLower markerLen fuel (absPos + markerLen)
        (newResult ++ (kept ++ placeholder))
    | none =>
      let kept ← orPanic (dropBytes? searchPos result)
      .ok (newResult ++ kept)

/-- Replace one marker, if it is in `lower`, the lower case of the content. -/
def removeMarker (T : CaseTables) (lower result marker : List Char) :
    Except Failure (List Char) :=
  let markerLower := T.toLowercase marker
  if contains lower markerLower then
    let resultLower := T.toLowercase result
    removeLoop result resultLower markerLower (utf8Len marker) (resultLower.length + 1) 0 []
  else .ok result

def stripInjectionMarkers (T : CaseTables) (content : List Char) : Except Failure (List Char) :=
  injectionMarkers.foldlM (removeMarker T (T.toLowercase content)) content

/-! ## What is asked of it -/

/-- A marker, up to case. -/
def IsMarker (T : CaseTables) (w : List Char) : Prop :=
  ∃ m ∈ injectionMarkers, T.toLowercase w = T.toLowercase m

/-- The function returns, only markers were replaced, and no marker is left. -/
def Stripped (T : CaseTables) (s : List Char) : Prop :=
  ∃ r, stripInjectionMarkers T s = .ok r ∧ Redacts (IsMarker T) placeholder s r ∧
    ∀ m ∈ injectionMarkers, ¬ T.toLowercase m <:+: T.toLowercase r

/-- No marker is moved by lower-casing what comes before it. -/
def Aligned (T : CaseTables) (s : List Char) : Prop :=
  ∀ a w b, s = a ++ (w ++ b) → IsMarker T w → T.growth a = 0

/-- No letter that comes before a marker takes another number of bytes in lower case. -/
def Steady (T : CaseTables) (s : List Char) : Prop :=
  ∀ a w b, s = a ++ (w ++ b) → IsMarker T w → ∀ c ∈ a, utf8Len (T.lower c) = c.utf8Size

theorem marker_facts : ∀ m ∈ injectionMarkers,
    m.all (fun c => c.utf8Size == 1) = true ∧ Findable (m.map Char.toLower) ∧
      Apart (placeholder.map Char.toLower) (m.map Char.toLower) ∧
      ∀ m' ∈ injectionMarkers, m.map Char.toLower <:+: m'.map Char.toLower → m = m' := by
  decide +kernel

theorem nodup_injectionMarkers : injectionMarkers.Nodup := by decide +kernel

variable {T : CaseTables} {m r s v w R : List Char}

section

variable (hm : m ∈ injectionMarkers)
include hm

theorem spells_marker : Spells m (m.map Char.toLower) :=
  ⟨ascii_of_all (marker_facts m hm).1, rfl⟩

theorem toLowercase_marker : T.toLowercase m = m.map Char.toLower :=
  (spells_marker hm).lowers_eq (lowers_toLowercase T m)

theorem findable_marker : Findable (m.map Char.toLower) :=
  (marker_facts m hm).2.1

theorem marker_ne_nil : m.map Char.toLower ≠ [] := by
  intro hnil
  obtain ⟨-, -, hapart, -⟩ := marker_facts m hm
  refine (hapart.inside _ ((mem_tails _ _).mpr suffix_rfl) hapart.note_ne_nil).2 ?_
  rw [hnil]
  exact nil_prefix

end

theorem isMarker_iff : IsMarker T w ↔ ∃ m ∈ injectionMarkers, Spells w (m.map Char.toLower) := by
  refine exists_congr fun m => and_congr_right fun hm => ?_
  rw [toLowercase_marker hm]
  refine ⟨fun h => ?_, fun h => h.lowers_eq (lowers_toLowercase T w)⟩
  have hlowers := lowers_toLowercase T w
  rw [h, ← append_nil (m.map _)] at hlowers
  obtain ⟨w', b, rfl, hw, hb⟩ := hlowers.find_prefix (findable_marker hm)
  rwa [hb.eq_nil, append_nil]

theorem apart_of_spells (hm : m ∈ injectionMarkers) (h : Spells w (m.map Char.toLower)) :
    Apart placeholder w := by
  apply Apart.of_map (f := Char.toLower)
  rw [h.lower_eq]
  exact (marker_facts m hm).2.2.1

theorem apart_of_isMarker (h : IsMarker T w) : Apart placeholder w := by
  obtain ⟨m, hm, hw⟩ := isMarker_iff.mp h
  exact apart_of_spells hm hw

theorem growth_of_isMarker (h : IsMarker T w) : T.growth w = 0 := by
  obtain ⟨m, -, hw⟩ := isMarker_iff.mp h
  exact hw.growth T

theorem growth_placeholder (T : CaseTables) : T.growth placeholder = 0 := by
  have hascii : placeholder.all (fun c => c.utf8Size == 1) = true := by decide
  exact growth_of_keeps fun c hc => utf8Len_lower_ascii (ascii_of_all hascii c hc)

theorem free_iff (T : CaseTables) (hm : m ∈ injectionMarkers) :
    Free (Spells · (m.map Char.toLower)) s ↔ ¬ T.toLowercase m <:+: T.toLowercase s := by
  rw [toLowercase_marker hm,
    (lowers_toLowercase T s).infix_iff (findable_marker hm) (marker_ne_nil hm)]
  simp only [Free, not_exists, not_and]
  exact ⟨fun h a w b hs hw => h a w b hw hs, fun h a w b hw hs => h a w b hs hw⟩

/-! ## Texts whose markers stay in place -/

theorem Aligned.redacts (h : Aligned T s) (hR : Redacts (IsMarker T) placeholder s R) :
    Aligned T R := by
  rintro a w b rfl hw
  obtain ⟨a', b', rfl, ha, -⟩ := hR.track (apart_of_isMarker hw)
  have hsum := ha.sum_eq (f := T.growth) (growth_append T)
    fun v hv => (growth_of_isMarker hv).trans (growth_placeholder T).symm
  rw [hsum]
  exact h a' w b' rfl hw

section Loop

variable {result resultLower markerLower rest after : List Char} {markerLen searchPos : ℕ}

theorem removeLoop_found (fuel : ℕ) (newResult : List Char)
    (hrest : dropBytes? searchPos resultLower = some rest)
    (hfound : splitOnce? markerLower rest = some (before, after)) :
    removeLoop result resultLower markerLower markerLen (fuel + 1) searchPos newResult =
      orPanic (slice? result searchPos (searchPos + utf8Len before)) >>= fun kept =>
        removeLoop result resultLower markerLower markerLen fuel
          (searchPos + utf8Len before + markerLen) (newResult ++ (kept ++ placeholder)) := by
  rw [removeLoop, hrest]
  simp only [orPanic, bind, Except.bind, hfound]

theorem removeLoop_done (fuel : ℕ) (newResult : List Char)
    (hrest : dropBytes? searchPos resultLower = some rest)
    (hdone : splitOnce? markerLower rest = none) :
    removeLoop result resultLower markerLower markerLen (fuel + 1) searchPos newResult =
      orPanic (dropBytes? searchPos result) >>= fun kept => .ok (newResult ++ kept) := by
  rw [removeLoop, hrest]
  simp only [orPanic, bind, Except.bind, hdone]

end Loop

/-- **One marker is replaced everywhere.** Before the search position stands `R₁`. -/
theorem removeLoop_spec (hm : m ∈ injectionMarkers) (fuel : ℕ) :
    ∀ {R₁ R₂ Y₁ Y₂ : List Char} (newResult : List Char), Lowers T R₁ Y₁ → Lowers T R₂ Y₂ →
      T.growth R₁ = 0 →
      (∀ a w b, R₂ = a ++ (w ++ b) → Spells w (m.map Char.toLower) → T.growth a = 0) →
      Y₂.length < fuel →
      ∃ r, Sweeps (Spells · (m.map Char.toLower)) placeholder R₂ r ∧
        removeLoop (R₁ ++ R₂) (Y₁ ++ Y₂) (m.map Char.toLower) (utf8Len m) fuel (utf8Len R₁)
          newResult = .ok (newResult ++ r) := by
  induction fuel with
  | zero => intro R₁ R₂ Y₁ Y₂ newResult _ _ _ _ hfuel; omega
  | succ fuel ih =>
    intro R₁ R₂ Y₁ Y₂ newResult h₁ h₂ hgrowth haligned hfuel
    have hfindable := findable_marker hm
    have hne := marker_ne_nil hm
    have hpos : utf8Len R₁ = utf8Len Y₁ := by
      have hlen := h₁.utf8Len_eq
      omega
    have hrest : dropBytes? (utf8Len R₁) (Y₁ ++ Y₂) = some Y₂ := by
      rw [hpos, dropBytes?_append]
    cases hsplit : splitOnce? (m.map Char.toLower) Y₂ with
    | none =>
      refine ⟨R₂, .done fun a w b hw heq => ?_, ?_⟩
      · exact (splitOnce?_eq_none_iff hne).mp hsplit
          ((h₂.infix_iff hfindable hne).mpr ⟨a, w, b, heq, hw⟩)
      · rw [removeLoop_done fuel newResult hrest hsplit, dropBytes?_append]
        rfl
    | some parts =>
      obtain ⟨before, after⟩ := parts
      obtain ⟨rfl, hfirst⟩ := splitOnce?_eq_some hne hsplit
      obtain ⟨a, w, b, rfl, ha, hw, hb⟩ := h₂.find hfindable hne
      have hga : T.growth a = 0 := haligned a w b rfl hw
      have hgw : T.growth w = 0 := hw.growth T
      have hlen : utf8Len before = utf8Len a := by
        have hlen := ha.utf8Len_eq
        omega
      have hmlen : utf8Len m = utf8Len w := by
        rw [hw.utf8Len_eq, (spells_marker hm).utf8Len_eq]
      have hword : Lowers T w (m.map Char.toLower) := by
        have hlowers := lowers_toLowercase T w
        rwa [hw.lowers_eq hlowers] at hlowers
      obtain ⟨r, hr, hloop⟩ := ih (newResult ++ (a ++ placeholder))
        (h₁.append (ha.append hword)) hb
        (by rw [growth_append, growth_append, hgrowth, hga, hgw]; rfl)
        (fun a' w' b' heq hw' => by
          have hshift := haligned (a ++ (w ++ a')) w' b' (by simp [heq]) hw'
          rw [growth_append, growth_append, hga, hgw] at hshift
          omega)
        (by
          have hlong := length_pos_iff.mpr hne
          simp only [length_append] at hfuel
          omega)
      refine ⟨a ++ (placeholder ++ r), .cut (fun a' w' b' hw' heq => ?_) hw hr, ?_⟩
      · exact hfirst ((ha.infix_iff hfindable hne).mpr ⟨a', w', b', heq, hw'⟩)
      · rw [removeLoop_found fuel newResult hrest hsplit, hlen, slice?_append]
        have hnext : utf8Len R₁ + utf8Len a + utf8Len m = utf8Len (R₁ ++ (a ++ w)) := by
          rw [utf8Len_append, utf8Len_append, hmlen, Nat.add_assoc]
        simp only [append_assoc] at hloop
        rw [hnext]
        exact hloop

theorem removeMarker_spec (hm : m ∈ injectionMarkers) (hs : Aligned T s)
    (hR : Redacts (IsMarker T) placeholder s R) :
    ∃ r, removeMarker T (T.toLowercase s) R m = .ok r ∧ Redacts (IsMarker T) placeholder R r ∧
      Free (Spells · (m.map Char.toLower)) r := by
  have hmarker : ∀ w, Spells w (m.map Char.toLower) → IsMarker T w :=
    fun w hw => isMarker_iff.mpr ⟨m, hm, hw⟩
  rw [removeMarker]
  split
  · have haligned := hs.redacts hR
    obtain ⟨r, hr, hloop⟩ := removeLoop_spec hm ((T.toLowercase R).length + 1) [] Lowers.nil
      (lowers_toLowercase T R) (growth_nil T)
      (fun a w b heq hw => haligned a w b heq (hmarker w hw)) (Nat.lt_succ_self _)
    refine ⟨r, ?_, hr.redacts hmarker, hr.free fun w hw => apart_of_spells hm hw⟩
    rw [toLowercase_marker hm]
    exact hloop
  · rename_i hnot
    -- what was found in no place of the content is not in the redacted text
    refine ⟨R, rfl, .keep R, hR.free (fun w hw => apart_of_spells hm hw) ((free_iff T hm).mpr ?_)⟩
    rwa [contains_iff] at hnot

theorem foldlM_removeMarker_spec (hs : Aligned T s) :
    ∀ (ms : List (List Char)) {R : List Char}, (∀ m ∈ ms, m ∈ injectionMarkers) →
      Redacts (IsMarker T) placeholder s R →
      ∃ r, ms.foldlM (removeMarker T (T.toLowercase s)) R = .ok r ∧
        Redacts (IsMarker T) placeholder R r ∧
        ∀ m ∈ ms, Free (Spells · (m.map Char.toLower)) r := by
  intro ms
  induction ms with
  | nil => exact fun _ _ => ⟨_, rfl, .keep _, by simp⟩
  | cons m ms ih =>
    intro R hms hR
    rw [forall_mem_cons] at hms
    obtain ⟨R', hstep, hR', hfree⟩ := removeMarker_spec hms.1 hs hR
    have htrans : ∀ w, IsMarker T w → Apart placeholder w := fun w => apart_of_isMarker
    obtain ⟨r, hrun, hr, hrest⟩ := ih hms.2 (hR.trans htrans hR')
    refine ⟨r, ?_, hR'.trans htrans hr, forall_mem_cons.mpr ⟨?_, hrest⟩⟩
    · rw [foldlM_cons, hstep]
      exact hrun
    · exact hr.free (fun w hw => apart_of_spells hms.1 hw) hfree

/-- **A text whose markers stay in place is stripped as it should be.** -/
theorem stripped_of_aligned (hs : Aligned T s) : Stripped T s := by
  obtain ⟨r, hrun, hr, hfree⟩ := foldlM_removeMarker_spec hs injectionMarkers (fun m hm => hm)
    (.keep s)
  exact ⟨r, hrun, hr, fun m hm => (free_iff T hm).mp (hfree m hm)⟩

theorem Steady.aligned (h : Steady T s) : Aligned T s :=
  fun a w b heq hw => growth_of_keeps (h a w b heq hw)

theorem Steady.of_infix (h : Steady T s) (hp : p <:+: s) : Steady T p := by
  obtain ⟨x, y, rfl⟩ := hp
  rintro a w b rfl hw c hc
  exact h (x ++ a) w (b ++ y) (by simp) hw c (mem_append_right x hc)

/-! ## A letter that changes its length -/

/-- A letter that changes its length, and later a marker; none of either kind between them. -/
structure Tight (T : CaseTables) (c : Char) (x w : List Char) : Prop where
  marker : IsMarker T w
  changes : utf8Len (T.lower c) ≠ c.utf8Size
  keeps : ∀ d ∈ x, utf8Len (T.lower d) = d.utf8Size
  only : ∀ a v b, IsMarker T v → c :: (x ++ w) = a ++ (v ++ b) → a = c :: x ∧ v = w ∧ b = []

theorem isMarker_ne_nil (h : IsMarker T w) : w ≠ [] := by
  rintro rfl
  obtain ⟨m, hm, hw⟩ := isMarker_iff.mp h
  exact marker_ne_nil hm hw.lower_eq.symm

theorem eq_of_infix (hv : IsMarker T v) (hw : IsMarker T w) (h : v <:+: w) : v = w := by
  obtain ⟨m, hm, hvm⟩ := isMarker_iff.mp hv
  obtain ⟨m', hm', hwm⟩ := isMarker_iff.mp hw
  have hpart : m.map Char.toLower <:+: m'.map Char.toLower := by
    rw [← hvm.lower_eq, ← hwm.lower_eq]
    exact h.map _
  obtain rfl := (marker_facts m hm).2.2.2 m' hm' hpart
  exact h.eq_of_length (hvm.length_eq.trans hwm.length_eq.symm)

theorem not_mem_of_changes (h : utf8Len (T.lower c) ≠ c.utf8Size) (hw : IsMarker T w) : c ∉ w := by
  obtain ⟨m, -, hwm⟩ := isMarker_iff.mp hw
  exact fun hc => h (utf8Len_lower_ascii (hwm.ascii c hc))

theorem exists_tight_infix (hw : IsMarker T w) (hc : utf8Len (T.lower c) ≠ c.utf8Size) :
    ∃ c' x' w', Tight T c' x' w' ∧ c' :: (x' ++ w') <:+: c :: (x ++ w) := by
  induction hn : x.length using Nat.strong_induction_on generalizing c x w with
  | _ n ih =>
    by_cases hkeeps : ∀ d ∈ x, utf8Len (T.lower d) = d.utf8Size
    · by_cases honly : ∀ a v b, IsMarker T v → c :: (x ++ w) = a ++ (v ++ b) →
          a = c :: x ∧ v = w ∧ b = []
      · exact ⟨c, x, w, ⟨hw, hc, hkeeps, honly⟩, infix_rfl⟩
      · -- another marker comes first
        simp only [not_forall] at honly
        obtain ⟨a, v, b, hv, heq, hother⟩ := honly
        obtain ⟨a, rfl⟩ : ∃ a', a = c :: a' := by
          cases a with
          | nil =>
            obtain ⟨e, v, rfl⟩ := exists_cons_of_ne_nil (isMarker_ne_nil hv)
            obtain ⟨rfl, -⟩ := List.cons.inj heq
            exact absurd mem_cons_self (not_mem_of_changes hc hv)
          | cons e a =>
            obtain ⟨rfl, -⟩ := List.cons.inj heq
            exact ⟨a, rfl⟩
        rw [cons_append, List.cons.injEq, and_iff_right rfl] at heq
        have hlonger : ∀ z, w ≠ z ++ (v ++ b) ∨ a ≠ x ++ z := by
          refine fun z => not_and_or.mp fun hz => hother ?_
          obtain rfl := eq_of_infix hv hw ⟨z, b, by rw [hz.1, append_assoc]⟩
          have hlength := congrArg List.length hz.1
          simp only [length_append] at hlength
          have hz' : z = [] := length_eq_zero_iff.mp (by omega)
          have hb : b = [] := length_eq_zero_iff.mp (by omega)
          rw [hz.2, hz', hb, append_nil]
          exact ⟨rfl, rfl, rfl⟩
        have hshorter : a.length < x.length := by
          by_contra hle
          rcases append_eq_append_iff.mp heq with ⟨z, hz, hw'⟩ | ⟨z, hz, hw'⟩
          · exact (hlonger z).elim (fun h => h hw') fun h => h hz
          · have hlength := congrArg List.length hz
            rw [length_append] at hlength
            have hz' : z = [] := length_eq_zero_iff.mp (by omega)
            subst hz'
            exact (hlonger []).elim (fun h => h hw'.symm) fun h => h (by simpa using hz.symm)
        obtain ⟨c', x', w', htight, hpart⟩ := ih a.length (hn ▸ hshorter) hv hc rfl
        refine ⟨c', x', w', htight, hpart.trans ⟨[], b, ?_⟩⟩
        simp [heq]
    · simp only [not_forall] at hkeeps
      obtain ⟨d, hd, hchanges⟩ := hkeeps
      obtain ⟨x₁, x₂, rfl⟩ := append_of_mem hd
      obtain ⟨c', x', w', htight, hpart⟩ := ih x₂.length (by simp at hn; omega) hw hchanges rfl
      refine ⟨c', x', w', htight, hpart.trans ⟨c :: x₁, [], ?_⟩⟩
      simp

theorem exists_tight (h : ¬ Steady T s) : ∃ c x w, Tight T c x w ∧ c :: (x ++ w) <:+: s := by
  simp only [Steady, not_forall] at h
  obtain ⟨a, w, b, rfl, hw, c, hc, hchanges⟩ := h
  obtain ⟨a₁, a₂, rfl⟩ := append_of_mem hc
  obtain ⟨c', x', w', htight, hpart⟩ := exists_tight_infix (x := a₂) hw hchanges
  refine ⟨c', x', w', htight, hpart.trans ⟨a₁, b, ?_⟩⟩
  simp

theorem foldlM_eq_single {ε σ κ : Type} {f : σ → κ → Except ε σ} {k : κ} :
    ∀ {l : List κ} (st : σ), l.Nodup → k ∈ l → (∀ st, ∀ k' ∈ l, k' ≠ k → f st k' = .ok st) →
      l.foldlM f st = f st k := by
  intro l
  induction l with
  | nil => exact fun _ _ hk => nomatch hk
  | cons k₀ l ih =>
    intro st hnd hk hf
    obtain ⟨hnot, hnd⟩ := nodup_cons.mp hnd
    rw [foldlM_cons]
    by_cases heq : k₀ = k
    · subst heq
      have hidle : ∀ l' : List κ, (∀ k' ∈ l', k' ∈ l) → ∀ st, l'.foldlM f st = .ok st := by
        intro l'
        induction l' with
        | nil => exact fun _ _ => rfl
        | cons k' l' ih' =>
          intro hl' st
          rw [forall_mem_cons] at hl'
          have hne : k' ≠ k₀ := fun h => hnot (h ▸ hl'.1)
          rw [foldlM_cons, hf st k' (mem_cons_of_mem _ hl'.1) hne]
          exact ih' hl'.2 st
      cases f st k₀ with
      | ok st' => exact hidle l (fun _ h => h) st'
      | error e => rfl
    · rw [hf st k₀ mem_cons_self heq]
      exact ih st hnd ((mem_cons.mp hk).resolve_left (Ne.symm heq))
        fun st k' hk' => hf st k' (mem_cons_of_mem _ hk')

section Tight

variable {c : Char} {x : List Char}

section

variable (h : Tight T c x w)
include h

theorem Tight.strip_eq (hm : m ∈ injectionMarkers) (hw : Spells w (m.map Char.toLower)) :
    stripInjectionMarkers T (c :: (x ++ w)) =
      removeLoop (c :: (x ++ w)) (T.toLowercase (c :: (x ++ w))) (m.map Char.toLower) (utf8Len m)
        ((T.toLowercase (c :: (x ++ w))).length + 1) 0 [] := by
  have hlowers := lowers_toLowercase T (c :: (x ++ w))
  have hfound : ∀ m' ∈ injectionMarkers,
      contains (T.toLowercase (c :: (x ++ w))) (T.toLowercase m') = true ↔ m' = m := by
    intro m' hm'
    rw [contains_iff, toLowercase_marker hm',
      hlowers.infix_iff (findable_marker hm') (marker_ne_nil hm')]
    refine ⟨?_, ?_⟩
    · rintro ⟨a, v, b, heq, hv⟩
      obtain ⟨-, rfl, -⟩ := h.only a v b (isMarker_iff.mpr ⟨m', hm', hv⟩) heq
      refine (marker_facts m' hm').2.2.2 m hm ?_
      rw [← hv.lower_eq, ← hw.lower_eq]
    · rintro rfl
      exact ⟨c :: x, w, [], by simp, hw⟩
  rw [stripInjectionMarkers, foldlM_eq_single _ nodup_injectionMarkers hm fun st m' hm' hne => ?_]
  · rw [removeMarker, if_pos ((hfound m hm).mpr rfl), toLowercase_marker hm]
  · rw [removeMarker, if_neg (mt (hfound m' hm').mp hne)]

theorem Tight.split_eq (hm : m ∈ injectionMarkers) (hw : Spells w (m.map Char.toLower)) :
    ∃ before, splitOnce? (m.map Char.toLower) (T.toLowercase (c :: (x ++ w))) = some (before, []) ∧
      T.toLowercase (c :: (x ++ w)) = before ++ m.map Char.toLower ∧
      Lowers T (c :: x) before := by
  have hlowers := lowers_toLowercase T (c :: (x ++ w))
  have hfindable := findable_marker hm
  have hne := marker_ne_nil hm
  cases hsplit : splitOnce? (m.map Char.toLower) (T.toLowercase (c :: (x ++ w))) with
  | none =>
    exact absurd ((hlowers.infix_iff hfindable hne).mpr ⟨c :: x, w, [], by simp, hw⟩)
      ((splitOnce?_eq_none_iff hne).mp hsplit)
  | some parts =>
    obtain ⟨before, after⟩ := parts
    obtain ⟨heq, -⟩ := splitOnce?_eq_some hne hsplit
    rw [heq] at hlowers
    obtain ⟨a, v, b, hp, ha, hv, hb⟩ := hlowers.find hfindable hne
    obtain ⟨rfl, rfl, rfl⟩ := h.only a v b (isMarker_iff.mpr ⟨m, hm, hv⟩) hp
    obtain rfl : after = [] := by
      cases hb
      rfl
    rw [append_nil] at heq
    exact ⟨before, rfl, heq, ha⟩

/-- What the loop returns: something from the end of the text is behind the placeholder. -/
theorem Tight.result (hr : stripInjectionMarkers T (c :: (x ++ w)) = .ok r) :
    ∃ kept q, r = kept ++ (placeholder ++ q) ∧ q ≠ [] ∧ q.length < 4 := by
  obtain ⟨m, hm, hw⟩ := isMarker_iff.mp h.marker
  obtain ⟨before, hsplit, heq, hbefore⟩ := h.split_eq hm hw
  have hstart : dropBytes? 0 (T.toLowercase (c :: (x ++ w))) =
      some (T.toLowercase (c :: (x ++ w))) := dropBytes?_append [] _
  have hmarker : utf8Len (m.map Char.toLower) = utf8Len m := by
    rw [utf8Len_of_ascii (findable_marker hm).ascii, (spells_marker hm).utf8Len_eq]
  rw [h.strip_eq hm hw, removeLoop_found _ _ hstart hsplit, Outcome.bind_eq_ok] at hr
  obtain ⟨kept, -, hr⟩ := hr
  obtain ⟨n, hn⟩ : ∃ n, (T.toLowercase (c :: (x ++ w))).length = n + 1 := by
    refine Nat.exists_eq_succ_of_ne_zero fun hzero => ?_
    rw [heq, length_eq_zero_iff] at hzero
    exact marker_ne_nil hm (append_eq_nil_iff.mp hzero).2
  have hend : dropBytes? (0 + utf8Len before + utf8Len m) (T.toLowercase (c :: (x ++ w))) =
      some [] := by
    refine dropBytes?_eq_some.mpr ⟨T.toLowercase (c :: (x ++ w)), by simp, ?_⟩
    rw [heq, utf8Len_append, hmarker, Nat.zero_add]
  rw [hn, removeLoop_done _ _ hend rfl, Outcome.bind_eq_ok] at hr
  obtain ⟨q, hq, hr⟩ := hr
  have hdrop : dropBytes? (0 + utf8Len before + utf8Len m) (c :: (x ++ w)) = some q := by
    cases hd : dropBytes? (0 + utf8Len before + utf8Len m) (c :: (x ++ w)) with
    | none => rw [hd] at hq; cases hq
    | some q' => rw [hd] at hq; rw [Except.ok.inj hq]
  obtain ⟨start, hsplit', hlen⟩ := dropBytes?_eq_some.mp hdrop
  -- count the bytes that are left
  have hbytes : utf8Len q + utf8Len (T.lower c) = c.utf8Size := by
    have hall := congrArg utf8Len hsplit'
    have hgrowth := hbefore.utf8Len_eq
    have hword : utf8Len w = utf8Len m := by
      rw [hw.utf8Len_eq, (spells_marker hm).utf8Len_eq]
    rw [← singleton_append, growth_append, growth_of_keeps h.keeps,
      CaseTables.growth] at hgrowth
    simp only [flatMap_cons, flatMap_nil, append_nil, utf8Len_append, utf8Len_cons,
      utf8Len_nil] at hgrowth hall
    omega
  have hpos : 0 < utf8Len (T.lower c) :=
    Nat.pos_of_ne_zero (mt utf8Len_eq_zero.mp (T.lower_ne_nil c))
  refine ⟨kept, q, ?_, ?_, ?_⟩
  · rw [← Except.ok.inj hr]
    simp
  · rintro rfl
    exact h.changes (by rw [utf8Len_nil, Nat.zero_add] at hbytes; exact hbytes)
  · have hle := length_le_utf8Len q
    have hfour := c.utf8Size_le_four
    omega

theorem Tight.redacted (hr : Redacts (IsMarker T) placeholder (c :: (x ++ w)) r)
    (hfree : ∀ m ∈ injectionMarkers, ¬ T.toLowercase m <:+: T.toLowercase r) :
    r = c :: (x ++ placeholder) := by
  obtain ⟨m, hm, hw⟩ := isMarker_iff.mp h.marker
  generalize hp : c :: (x ++ w) = p at hr
  cases hr with
  | keep =>
    exact absurd hp.symm ((free_iff T hm).mpr (hfree m hm) (c :: x) w [] hw <| by simpa using ·)
  | cut a hv hrest =>
    obtain ⟨rfl, rfl, rfl⟩ := h.only a _ _ hv hp
    have hnil := hrest.of_nil fun w hw => isMarker_ne_nil hw
    rw [hnil, append_nil]
    rfl

end

theorem placeholder_end (heq : a ++ placeholder = b ++ (placeholder ++ q)) (hq : q.length < 4) :
    q = [] := by
  have hsuff : placeholder <:+ placeholder ++ q :=
    suffix_of_suffix_length_le (heq ▸ suffix_append a placeholder)
      (suffix_append b (placeholder ++ q)) (by simp)
  obtain ⟨z, hz⟩ := hsuff
  have hlength := congrArg List.length hz
  simp only [length_append] at hlength
  cases z with
  | nil => exact length_eq_zero_iff.mp (by simpa using hlength.symm)
  | cons e z =>
    -- the bracket is only at the beginning
    obtain ⟨hhead, htail⟩ : placeholder = '[' :: placeholder.tail ∧
        placeholder.tail.length = 25 ∧ '[' ∉ placeholder.tail := by decide
    rw [length_cons] at hlength
    have hz' : z ++ placeholder = placeholder.tail ++ q := by
      rw [hhead, cons_append, cons_append] at hz
      rw [← (List.cons.inj hz).2, ← hhead]
    rcases append_eq_append_iff.mp hz' with ⟨t, ht, hrest⟩ | ⟨t, ht, -⟩
    · have hlen := congrArg List.length ht
      rw [length_append] at hlen
      cases t with
      | nil =>
        rw [length_nil] at hlen
        omega
      | cons f t =>
        rw [hhead] at hrest
        obtain ⟨rfl, -⟩ := List.cons.inj hrest
        refine absurd ?_ htail.2
        rw [ht]
        exact mem_append_right z mem_cons_self
    · have hlen := congrArg List.length ht
      rw [length_append] at hlen
      omega

/-- **A letter that changes its length before a marker**: the text is not stripped. -/
theorem Tight.not_stripped (h : Tight T c x w) : ¬ Stripped T (c :: (x ++ w)) := by
  rintro ⟨r, hr, hredacts, hfree⟩
  obtain ⟨kept, q, heq, hne, hq⟩ := h.result hr
  rw [h.redacted hredacts hfree, ← cons_append] at heq
  exact hne (placeholder_end heq hq)

end Tight

/-- **Texts are stripped as they should be**, exactly if lower case keeps all lengths. -/
theorem stripped_pieces_iff (T : CaseTables) (s : List Char) :
    (∀ p, p <:+: s → Stripped T p) ↔ Steady T s := by
  refine ⟨fun h => ?_, fun h p hp => stripped_of_aligned (h.of_infix hp).aligned⟩
  by_contra hnot
  obtain ⟨c, x, w, htight, hpart⟩ := exists_tight hnot
  exact htight.not_stripped (h _ hpart)

theorem steady_of_ascii (h : ∀ c ∈ s, c.utf8Size = 1) : Steady T s := by
  rintro a w b rfl - c hc
  exact utf8Len_lower_ascii (h c (mem_append_left _ hc))

theorem greeting_stripped : Stripped .excerpt "Hi <|SYSTEM|>, [System] !".toList :=
  (stripped_pieces_iff .excerpt _).mpr (steady_of_ascii (ascii_of_all (by decide))) _ infix_rfl

/-- The function panics after a dotted capital I, and if there is more text it may lose some. -/
theorem dotted_marker_panics :
    stripInjectionMarkers .excerpt ('\u0130' :: "<|system|>".toList) = .error .panic ∧
      stripInjectionMarkers .excerpt ('\u0130' :: "<|system|>x".toList) =
        .ok ('\u0130' :: '<' :: placeholder) := by
  decide +kernel

end AlloyAgent.InjectionMarkers
