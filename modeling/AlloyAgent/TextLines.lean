import AlloyAgent.RustStr

/-!
# Lines and their terminators

`lines` forgets how each line ended. `terminated` keeps it, and with it nothing is lost: putting the
lines together again (`assemble`) gives back the text.

* `assemble_terminated`: nothing is lost; `assemble_inj`: nothing is ambiguous.
-/

namespace AlloyAgent.TextLines

open List RustStr

inductive Terminator where
  | lf
  | crlf
  /-- the text ends with the line -/
  | eof
  deriving DecidableEq

def Terminator.text : Terminator → List Char
  | .lf => ['\n']
  | .crlf => ['\r', '\n']
  | .eof => []

/-- A line as it is read, backwards, up to a newline. -/
def endLine : List Char → List Char × Terminator
  | '\r' :: line => (line.reverse, .crlf)
  | line => (line.reverse, .lf)

/-- The terminated lines after a beginning of the first one, which is read backwards. -/
def terminatedGo : List Char → List Char → List (List Char × Terminator)
  | [], [] => []
  | line, [] => [(line.reverse, .eof)]
  | line, c :: s =>
    if c = '\n' then endLine line :: terminatedGo [] s else terminatedGo (c :: line) s

def terminated (s : List Char) : List (List Char × Terminator) := terminatedGo [] s

def assemble (ls : List (List Char × Terminator)) : List Char := ls.flatMap fun p => p.1 ++ p.2.text

@[simp] theorem assemble_nil : assemble [] = [] := rfl

@[simp] theorem assemble_cons (l : List Char) (t : Terminator)
    (ls : List (List Char × Terminator)) :
    assemble ((l, t) :: ls) = l ++ (t.text ++ assemble ls) := by
  simp [assemble]

@[simp] theorem assemble_append (ls ls' : List (List Char × Terminator)) :
    assemble (ls ++ ls') = assemble ls ++ assemble ls' := by
  simp [assemble]

theorem endLine_fst (line : List Char) : (endLine line).1 = (dropReturn line).reverse := by
  cases line with
  | nil => rfl
  | cons c line =>
    by_cases hc : c = '\r'
    · rw [hc]
      rfl
    · rw [dropReturn.eq_2 _ (by simpa using hc), endLine.eq_2 _ (by simpa using hc)]

theorem endLine_text (line : List Char) :
    (endLine line).1 ++ (endLine line).2.text = line.reverse ++ ['\n'] := by
  unfold endLine
  split
  · simp [Terminator.text]
  · rfl

theorem endLine_ne_eof (line : List Char) : (endLine line).2 ≠ .eof := by
  unfold endLine
  split <;> simp

/-! ## Nothing is lost -/

theorem map_fst_terminatedGo (s line : List Char) :
    (terminatedGo line s).map Prod.fst = linesGo line s := by
  induction s generalizing line with
  | nil => cases line <;> rfl
  | cons c s ih =>
    rw [terminatedGo, linesGo]
    split
    · rw [map_cons, endLine_fst, ih]
    · exact ih _

theorem map_fst_terminated (s : List Char) : (terminated s).map Prod.fst = lines s :=
  map_fst_terminatedGo s []

theorem assemble_terminatedGo (s line : List Char) :
    assemble (terminatedGo line s) = line.reverse ++ s := by
  induction s generalizing line with
  | nil => cases line <;> simp [terminatedGo, Terminator.text]
  | cons c s ih =>
    rw [terminatedGo]
    split
    · rename_i hc
      rw [assemble_cons, ih, ← append_assoc, endLine_text, hc]
      simp
    · rw [ih]
      simp

/-- **Terminated lines make up the text.** -/
theorem assemble_terminated (s : List Char) : assemble (terminated s) = s :=
  assemble_terminatedGo s []

variable {s line : List Char} {p : List Char × Terminator}

theorem newline_notMem_of_mem_terminatedGo (hline : '\n' ∉ line) (hp : p ∈ terminatedGo line s) :
    '\n' ∉ p.1 := by
  induction s generalizing line with
  | nil =>
    cases line with
    | nil => cases hp
    | cons c line =>
      obtain rfl := mem_singleton.mp hp
      rwa [mem_reverse]
  | cons c s ih =>
    rw [terminatedGo] at hp
    split at hp
    · rcases mem_cons.mp hp with rfl | hp
      · rw [endLine_fst, mem_reverse]
        unfold dropReturn
        split
        · exact fun h => hline (mem_cons_of_mem _ h)
        · exact hline
      · exact ih not_mem_nil hp
    · rename_i hc
      refine ih ?_ hp
      simp [hline, Ne.symm hc]

variable {l : List Char}

theorem newline_notMem_of_mem_lines (hl : l ∈ lines s) : '\n' ∉ l := by
  rw [← map_fst_terminated] at hl
  obtain ⟨p, hp, rfl⟩ := mem_map.mp hl
  exact newline_notMem_of_mem_terminatedGo not_mem_nil hp

theorem ne_eof_of_mem_dropLast (hp : p ∈ (terminatedGo line s).dropLast) : p.2 ≠ .eof := by
  induction s generalizing line with
  | nil => cases line <;> cases hp
  | cons c s ih =>
    rw [terminatedGo] at hp
    split at hp
    · by_cases hnil : terminatedGo [] s = []
      · rw [hnil] at hp
        cases hp
      · rw [dropLast_cons_of_ne_nil hnil] at hp
        rcases mem_cons.mp hp with rfl | hp
        · exact endLine_ne_eof line
        · exact ih hp
    · exact ih hp

theorem ne_nil_of_mem_terminatedGo (hp : p ∈ terminatedGo line s) (heof : p.2 = .eof) :
    p.1 ≠ [] := by
  induction s generalizing line with
  | nil =>
    cases line with
    | nil => cases hp
    | cons c line =>
      obtain rfl := mem_singleton.mp hp
      simp
  | cons c s ih =>
    rw [terminatedGo] at hp
    split at hp
    · rcases mem_cons.mp hp with rfl | hp
      · exact absurd heof (endLine_ne_eof line)
      · exact ih hp
    · exact ih hp

theorem getLast?_terminatedGo_eof (h : (terminatedGo line s).getLast? = some (l, t))
    (hline : '\n' ∉ line) : t = .eof ↔ (line.reverse ++ s).getLast? ≠ some '\n' := by
  induction s generalizing line with
  | nil =>
    cases line with
    | nil => cases h
    | cons c line =>
      obtain ⟨-, rfl⟩ := Prod.mk.inj (Option.some.inj h)
      have hc : c ≠ '\n' := fun hc => hline (by simp [hc])
      simp [hc]
  | cons c s ih =>
    rw [terminatedGo] at h
    split at h
    · rename_i hc
      rw [hc, append_cons]
      cases s with
      | nil =>
        have hp : endLine line = (l, t) := Option.some.inj h
        have hne := endLine_ne_eof line
        rw [hp] at hne
        simp [hne]
      | cons d s =>
        have hne : terminatedGo [] (d :: s) ≠ [] := fun hnil => by
          have := assemble_terminatedGo (d :: s) []
          rw [hnil] at this
          cases this
        rw [getLast?_cons_of_ne_nil hne] at h
        rw [getLast?_append_of_ne_nil _ (cons_ne_nil d s)]
        exact ih h not_mem_nil
    · rename_i hc
      have := ih h (by simp [hline, Ne.symm hc])
      rwa [reverse_cons, append_assoc, singleton_append] at this

/-! ## Reading lines back -/

/-- A line without the carriage return at its end. -/
def chomp (l : List Char) : List Char := (dropReturn l.reverse).reverse

theorem linesGo_append (h : '\n' ∉ l) (s line : List Char) :
    linesGo line (l ++ s) = linesGo (l.reverse ++ line) s := by
  induction l generalizing line with
  | nil => rfl
  | cons c l ih =>
    rw [mem_cons, not_or] at h
    rw [cons_append, linesGo, if_neg (Ne.symm h.1), ih h.2, reverse_cons,
      append_assoc, singleton_append]

theorem lines_append_newline (h : '\n' ∉ l) (s : List Char) :
    lines (l ++ '\n' :: s) = chomp l :: lines s := by
  rw [lines, linesGo_append h, append_nil, linesGo, if_pos rfl]
  rfl

variable {ls : List (List Char)}

theorem lines_flatMap (h : ∀ l ∈ ls, '\n' ∉ l) :
    lines (ls.flatMap (· ++ ['\n'])) = ls.map chomp := by
  induction ls with
  | nil => rfl
  | cons l ls ih =>
    rw [forall_mem_cons] at h
    rw [flatMap_cons, append_assoc, singleton_append, lines_append_newline h.1,
      ih h.2, map_cons]

theorem chomp_concat_return (l : List Char) : chomp (l ++ ['\r']) = l := by
  simp [chomp, dropReturn]

theorem chomp_eq_self_iff : chomp l = l ↔ l.getLast? ≠ some '\r' := by
  rcases eq_nil_or_concat l with rfl | ⟨l, c, rfl⟩
  · exact ⟨fun _ => nofun, fun _ => rfl⟩
  · rw [concat_eq_append, getLast?_concat]
    by_cases hc : c = '\r'
    · rw [hc, chomp_concat_return]
      simp
    · have hdrop : dropReturn (l ++ [c]).reverse = (l ++ [c]).reverse := by
        rw [reverse_append, reverse_singleton, singleton_append,
          dropReturn.eq_2 _ (by simpa using hc)]
      rw [chomp, hdrop, reverse_reverse]
      simp [hc]

theorem chomp_cons (hc : c ≠ '\r') (l : List Char) : chomp (c :: l) = c :: chomp l := by
  rcases eq_nil_or_concat l with rfl | ⟨l, d, rfl⟩
  · exact chomp_eq_self_iff.mpr (by simpa using hc)
  · rw [concat_eq_append, ← cons_append]
    by_cases hd : d = '\r'
    · rw [hd, chomp_concat_return, chomp_concat_return]
    · rw [chomp_eq_self_iff.mpr (by rw [getLast?_concat]; simpa using hd),
        chomp_eq_self_iff.mpr (by rw [getLast?_concat]; simpa using hd)]
      rfl

section

variable (h : ∀ l ∈ ls, '\n' ∉ l)
include h

theorem lines_flatMap_append (s : List Char) :
    lines ((ls.flatMap (· ++ ['\r', '\n'])) ++ s) = ls ++ lines s := by
  induction ls with
  | nil => rfl
  | cons l ls ih =>
    rw [forall_mem_cons] at h
    have hsplit : (l :: ls).flatMap (· ++ ['\r', '\n']) ++ s =
        (l ++ ['\r']) ++ '\n' :: (ls.flatMap (· ++ ['\r', '\n']) ++ s) := by simp
    rw [hsplit, lines_append_newline (by simp [h.1]), chomp_concat_return, ih h.2,
      cons_append]

theorem exists_lines_eq : ∃ s, lines s = ls :=
  ⟨_, (lines_flatMap_append h []).trans (append_nil ls)⟩

theorem exists_lines_concat (hz : '\n' ∉ z) (hne : z ≠ []) :
    ∃ s, lines s = ls ++ [z] ∧ s.getLast? ≠ some '\n' := by
  refine ⟨ls.flatMap (· ++ ['\r', '\n']) ++ z, ?_, ?_⟩
  · rw [lines_flatMap_append h, lines_of_not_mem hz hne]
  · rw [getLast?_append_of_ne_nil _ hne]
    exact fun hlast => hz (mem_of_getLast? hlast)

end

theorem exists_fresh (ls : List (List Char)) :
    ∃ z : List Char, z ≠ [] ∧ '\n' ∉ z ∧ z ∉ ls := by
  obtain ⟨n, hn⟩ : ∃ n, ∀ l ∈ ls, l.length ≤ n := by
    induction ls with
    | nil => exact ⟨0, by simp⟩
    | cons l ls ih =>
      obtain ⟨n, hn⟩ := ih
      refine ⟨l.length + n, forall_mem_cons.mpr ⟨by omega, fun l' hl' => ?_⟩⟩
      have := hn l' hl'
      omega
  refine ⟨List.replicate (n + 1) 'x', by simp, by simp, fun hmem => ?_⟩
  have := hn _ hmem
  rw [length_replicate] at this
  omega

theorem intercalate_inj (h : ∀ l ∈ ls, '\n' ∉ l) (h' : ∀ l ∈ ls', '\n' ∉ l) (hne : ls ≠ [])
    (hne' : ls' ≠ []) (heq : ['\n'].intercalate ls = ['\n'].intercalate ls') : ls = ls' := by
  rw [← splitOn_intercalate '\n' h hne, heq, splitOn_intercalate '\n' h' hne']

theorem of_mem_splitOn (hl : l ∈ s.splitOn d) : d ∉ l ∧ ∀ c ∈ l, c ∈ s := by
  induction s generalizing l with
  | nil =>
    obtain rfl := mem_singleton.mp hl
    simp
  | cons e s ih =>
    rw [splitOn_cons_eq_if_modifyHead] at hl
    split at hl
    · rcases mem_cons.mp hl with rfl | hl
      · simp
      · exact ⟨(ih hl).1, fun c hc => mem_cons_of_mem e ((ih hl).2 c hc)⟩
    · rename_i hne
      obtain ⟨first, rest, hsplit⟩ := exists_cons_of_ne_nil (splitOn_ne_nil d s)
      rw [hsplit] at ih hl
      rcases mem_cons.mp hl with rfl | hl
      · have hfirst := ih mem_cons_self
        refine ⟨?_, ?_⟩
        · rw [mem_cons, not_or]
          exact ⟨fun h => hne (by simp [h]), hfirst.1⟩
        · intro c hc
          rcases mem_cons.mp hc with rfl | hc
          · exact mem_cons_self
          · exact mem_cons_of_mem e (hfirst.2 c hc)
      · have hrest := ih (mem_cons_of_mem first hl)
        exact ⟨hrest.1, fun c hc => mem_cons_of_mem e (hrest.2 c hc)⟩

/-! ## Two ways to end the same lines -/

theorem Terminator.eq_of_text_append {t t' : Terminator} {s' : List Char} (ht : t ≠ .eof)
    (ht' : t' ≠ .eof) (h : t.text ++ s = t'.text ++ s') : t = t' ∧ s = s' := by
  cases t <;> cases t' <;> simp_all [Terminator.text]

theorem Terminator.text_injective : Function.Injective Terminator.text := by
  intro t t' h
  cases t <;> cases t' <;> simp_all [Terminator.text]

/-- **The terminators can be read off the text**, if only the last line may lack one. -/
theorem assemble_inj {ls ls' : List (List Char × Terminator)}
    (hfst : ls.map Prod.fst = ls'.map Prod.fst) (h : ∀ p ∈ ls.dropLast, p.2 ≠ .eof)
    (h' : ∀ p ∈ ls'.dropLast, p.2 ≠ .eof) (heq : assemble ls = assemble ls') : ls = ls' := by
  induction ls generalizing ls' with
  | nil => exact (map_eq_nil_iff.mp hfst.symm).symm
  | cons p ls ih =>
    obtain ⟨l, t⟩ := p
    cases ls' with
    | nil => cases hfst
    | cons p' ls' =>
      obtain ⟨l', t'⟩ := p'
      obtain ⟨rfl, hrest⟩ := List.cons.inj hfst
      rw [assemble_cons, assemble_cons, append_cancel_left_eq] at heq
      by_cases hnil : ls = []
      · obtain rfl : ls' = [] := map_eq_nil_iff.mp (hrest.symm.trans (by rw [hnil]; rfl))
        rw [hnil, assemble_nil, append_nil, append_nil] at heq
        rw [hnil, Terminator.text_injective heq]
      · have hnil' : ls' ≠ [] := fun hn =>
          hnil (map_eq_nil_iff.mp (hrest.trans (by rw [hn]; rfl)))
        rw [dropLast_cons_of_ne_nil hnil, forall_mem_cons] at h
        rw [dropLast_cons_of_ne_nil hnil', forall_mem_cons] at h'
        obtain ⟨rfl, htail⟩ := Terminator.eq_of_text_append h.1 h'.1 heq
        rw [ih hrest h.2 h'.2 htail]

end AlloyAgent.TextLines
