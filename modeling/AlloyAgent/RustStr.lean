import Mathlib.Algebra.BigOperators.Group.List.Basic
import Mathlib.Algebra.Ring.Nat
import Mathlib.Data.List.Basic
import Mathlib.Data.List.DropRight
import Mathlib.Data.List.Infix

/-!
# Strings addressed by byte

A string is a sequence of characters, but lengths and slice bounds are counted in bytes of its UTF-8
encoding, and a slice whose bound falls inside a character aborts the program.

* `takeBytes?`, `dropBytes?`, `slice?`: slices; `Boundary`: where they are possible;
* `trim`, `lines`, `splitOnce?`, `replace`: what the models use of `str`.
-/

namespace AlloyAgent.RustStr

open List

def utf8Len (s : List Char) : ℕ := (s.map Char.utf8Size).sum

@[simp] theorem utf8Len_nil : utf8Len [] = 0 := rfl

@[simp] theorem utf8Len_cons (c : Char) (s : List Char) :
    utf8Len (c :: s) = c.utf8Size + utf8Len s := by
  simp [utf8Len]

@[simp] theorem utf8Len_append (s t : List Char) :
    utf8Len (s ++ t) = utf8Len s + utf8Len t := by
  simp [utf8Len]

variable {s : List Char}

theorem utf8Len_eq_zero : utf8Len s = 0 ↔ s = [] := by
  cases s with
  | nil => simp
  | cons c s =>
    have hpos := c.utf8Size_pos
    simp only [utf8Len_cons, reduceCtorEq, iff_false]
    omega

theorem length_le_utf8Len (s : List Char) : s.length ≤ utf8Len s := by
  induction s with
  | nil => exact Nat.le_refl _
  | cons c s ih =>
    have hpos := c.utf8Size_pos
    rw [utf8Len_cons, length_cons]
    omega

theorem utf8Len_eq_length_iff : utf8Len s = s.length ↔ ∀ c ∈ s, c.utf8Size = 1 := by
  induction s with
  | nil => simp
  | cons c s ih =>
    have hpos := Char.utf8Size_pos c
    have hle := length_le_utf8Len s
    rw [utf8Len_cons, length_cons, forall_mem_cons, ← ih]
    omega

theorem utf8ByteSize_ofList (s : List Char) : (String.ofList s).utf8ByteSize = utf8Len s := by
  induction s with
  | nil => rfl
  | cons c s ih =>
    have hcons : String.ofList (c :: s) = String.singleton c ++ String.ofList s := by
      rw [← String.toList_inj]
      simp
    rw [hcons, String.utf8ByteSize_append, String.utf8ByteSize_singleton, ih, utf8Len_cons]

theorem utf8ByteSize_eq (s : String) : s.utf8ByteSize = utf8Len s.toList := by
  rw [← utf8ByteSize_ofList, String.ofList_toList]

/-- The prefix of exactly `n` bytes, `&s[..n]`. -/
def takeBytes? (n : ℕ) : List Char → Option (List Char)
  | [] => if n = 0 then some [] else none
  | c :: s =>
    if n = 0 then some []
    else if c.utf8Size ≤ n then (takeBytes? (n - c.utf8Size) s).map (c :: ·)
    else none

/-- What is left after the first `n` bytes, `&s[n..]`. -/
def dropBytes? (n : ℕ) : List Char → Option (List Char)
  | [] => if n = 0 then some [] else none
  | c :: s =>
    if n = 0 then some (c :: s)
    else if c.utf8Size ≤ n then dropBytes? (n - c.utf8Size) s
    else none

def slice? (s : List Char) (i j : ℕ) : Option (List Char) :=
  if i ≤ j then (dropBytes? i s).bind (takeBytes? (j - i)) else none

/-- `rfind(c)`: the byte offset of the last occurrence of `c`. -/
def rfind? (c : Char) : List Char → Option ℕ
  | [] => none
  | d :: s =>
    match rfind? c s with
    | some i => some (d.utf8Size + i)
    | none => if d = c then some 0 else none

theorem takeBytes?_append (s t : List Char) : takeBytes? (utf8Len s) (s ++ t) = some s := by
  induction s with
  | nil => cases t <;> rfl
  | cons c s ih =>
    have hpos := c.utf8Size_pos
    rw [cons_append, takeBytes?, utf8Len_cons, if_neg (by omega), if_pos (by omega),
      Nat.add_sub_cancel_left, ih]
    rfl

variable {n : ℕ} {t : List Char}

theorem takeBytes?_eq_some : takeBytes? n s = some t ↔ ∃ rest, s = t ++ rest ∧ utf8Len t = n := by
  refine ⟨fun h => ?_, ?_⟩
  · induction s generalizing n t with
    | nil =>
      rw [takeBytes?] at h
      split_ifs at h with hn
      cases h
      exact ⟨[], rfl, hn.symm⟩
    | cons c s ih =>
      rw [takeBytes?] at h
      split_ifs at h with hn hle
      · cases h
        exact ⟨c :: s, rfl, hn.symm⟩
      · obtain ⟨t', ht', rfl⟩ := Option.map_eq_some_iff.mp h
        obtain ⟨rest, rfl, hlen⟩ := ih ht'
        refine ⟨rest, rfl, ?_⟩
        rw [utf8Len_cons, hlen]
        omega
  · rintro ⟨rest, rfl, rfl⟩
    exact takeBytes?_append t rest

theorem dropBytes?_append (s t : List Char) : dropBytes? (utf8Len s) (s ++ t) = some t := by
  induction s with
  | nil => cases t <;> rfl
  | cons c s ih =>
    have hpos := c.utf8Size_pos
    rw [cons_append, dropBytes?, utf8Len_cons, if_neg (by omega), if_pos (by omega),
      Nat.add_sub_cancel_left, ih]

theorem slice?_append (a s b : List Char) :
    slice? (a ++ (s ++ b)) (utf8Len a) (utf8Len a + utf8Len s) = some s := by
  rw [slice?, if_pos (Nat.le_add_right _ _), dropBytes?_append, Option.bind_some,
    Nat.add_sub_cancel_left, takeBytes?_append]

theorem dropBytes?_eq_some :
    dropBytes? n s = some t ↔ ∃ start, s = start ++ t ∧ utf8Len start = n := by
  refine ⟨fun h => ?_, ?_⟩
  · induction s generalizing n with
    | nil =>
      rw [dropBytes?] at h
      split at h
      · rename_i hn
        exact ⟨[], by rw [← Option.some.inj h]; rfl, hn.symm⟩
      · cases h
    | cons c s ih =>
      rw [dropBytes?] at h
      split at h
      · rename_i hn
        exact ⟨[], by rw [← Option.some.inj h]; rfl, hn.symm⟩
      · split at h
        · obtain ⟨start, rfl, hlen⟩ := ih h
          refine ⟨c :: start, rfl, ?_⟩
          rw [utf8Len_cons, hlen]
          omega
        · cases h
  · rintro ⟨start, rfl, rfl⟩
    exact dropBytes?_append start t

/-- `is_char_boundary(n)`: the offset does not fall inside a character, nor behind the end. -/
def Boundary (s : List Char) (n : ℕ) : Prop := ∃ a b, s = a ++ b ∧ utf8Len a = n

theorem boundary_zero (s : List Char) : Boundary s 0 := ⟨[], s, rfl, rfl⟩

theorem isSome_takeBytes? : (takeBytes? n s).isSome = true ↔ Boundary s n := by
  rw [Option.isSome_iff_exists]
  constructor
  · rintro ⟨t, ht⟩
    obtain ⟨rest, hs, hlen⟩ := takeBytes?_eq_some.mp ht
    exact ⟨t, rest, hs, hlen⟩
  · rintro ⟨t, rest, rfl, rfl⟩
    exact ⟨t, takeBytes?_append t rest⟩

theorem isSome_dropBytes? : (dropBytes? n s).isSome = true ↔ Boundary s n := by
  simp only [Option.isSome_iff_exists, dropBytes?_eq_some, Boundary]
  exact exists_comm

instance decidableBoundary (s : List Char) (n : ℕ) : Decidable (Boundary s n) :=
  decidable_of_iff _ isSome_takeBytes?

theorem takeBytes?_eq_none (h : ¬ Boundary s n) : takeBytes? n s = none := by
  rw [← Option.not_isSome_iff_eq_none, isSome_takeBytes?]
  exact h

variable {i : ℕ}

theorem slice?_eq_some :
    slice? s i j = some t ↔ ∃ a b, s = a ++ (t ++ b) ∧ utf8Len a = i ∧ i + utf8Len t = j := by
  constructor
  · intro h
    rw [slice?] at h
    split_ifs at h with hij
    obtain ⟨u, hu, ht⟩ := Option.bind_eq_some_iff.mp h
    obtain ⟨a, rfl, rfl⟩ := dropBytes?_eq_some.mp hu
    obtain ⟨b, rfl, hlen⟩ := takeBytes?_eq_some.mp ht
    exact ⟨a, b, rfl, rfl, by omega⟩
  · rintro ⟨a, b, rfl, rfl, rfl⟩
    exact slice?_append a t b

variable {a : List Char}

theorem prefix_of_utf8Len_le (h : a ++ b = c ++ d) (hle : utf8Len a ≤ utf8Len c) :
    ∃ t, c = a ++ t := by
  rcases append_eq_append_iff.mp h with ⟨t, hc, -⟩ | ⟨t, ha, -⟩
  · exact ⟨t, hc⟩
  · rw [ha, utf8Len_append] at hle
    obtain rfl : t = [] := utf8Len_eq_zero.mp (by omega)
    exact ⟨[], by rw [ha]; simp⟩

theorem exists_slice? (hij : i ≤ j) (hi : Boundary s i) (hj : Boundary s j) :
    ∃ t, slice? s i j = some t := by
  obtain ⟨a, b, rfl, rfl⟩ := hi
  obtain ⟨c, d, h, rfl⟩ := hj
  obtain ⟨t, rfl⟩ := prefix_of_utf8Len_le h hij
  refine ⟨t, slice?_eq_some.mpr ⟨a, d, ?_, rfl, (utf8Len_append a t).symm⟩⟩
  rw [h, append_assoc]

theorem Boundary.append_right (h : Boundary a n) (b : List Char) : Boundary (a ++ b) n := by
  obtain ⟨c, d, rfl, hlen⟩ := h
  exact ⟨c, d ++ b, append_assoc c d b, hlen⟩

theorem Boundary.of_append (h : Boundary (a ++ b) n) (hle : n ≤ utf8Len a) : Boundary a n := by
  obtain ⟨c, d, happend, rfl⟩ := h
  obtain ⟨t, rfl⟩ := prefix_of_utf8Len_le happend.symm hle
  exact ⟨c, t, rfl, rfl⟩

theorem boundary_of_ascii (hs : ∀ c ∈ s, c.utf8Size = 1) (hle : n ≤ utf8Len s) : Boundary s n := by
  induction s generalizing n with
  | nil =>
    obtain rfl : n = 0 := Nat.le_zero.mp hle
    exact boundary_zero []
  | cons c s ih =>
    have hc := hs c mem_cons_self
    rw [utf8Len_cons, hc] at hle
    cases n with
    | zero => exact boundary_zero _
    | succ n =>
      obtain ⟨a, b, rfl, hlen⟩ := ih (fun d hd => hs d (mem_cons_of_mem c hd))
        (show n ≤ utf8Len s by omega)
      refine ⟨c :: a, b, rfl, ?_⟩
      rw [utf8Len_cons, hc, hlen, Nat.add_comm]

theorem utf8Len_replicate (n : ℕ) (c : Char) :
    utf8Len (List.replicate n c) = n * c.utf8Size := by
  induction n with
  | zero => simp
  | succ n ih => rw [replicate_succ, utf8Len_cons, ih, Nat.succ_mul, Nat.add_comm]

variable {c : Char}

theorem dvd_of_boundary_replicate (h : Boundary (List.replicate k c) n) : c.utf8Size ∣ n := by
  obtain ⟨a, b, hs, rfl⟩ := h
  obtain ⟨-, ha, -⟩ := append_eq_replicate_iff.mp hs.symm
  rw [ha, utf8Len_replicate]
  exact Dvd.intro_left _ rfl

/-- The largest boundary that is at most `n`, found by walking backwards. -/
def floorBoundary (s : List Char) : ℕ → ℕ
  | 0 => 0
  | n + 1 => if Boundary s (n + 1) then n + 1 else floorBoundary s n

/-- Truncate a string to at most `maxBytes` bytes without splitting a multi-byte character. -/
def safeTruncateStr (s : String) (maxBytes : ℕ) : String :=
  if s.utf8ByteSize ≤ maxBytes then s
  else String.ofList ((takeBytes? (floorBoundary s.toList maxBytes) s.toList).getD [])

theorem rfind?_eq_some (h : rfind? c s = some i) :
    ∃ before after, s = before ++ c :: after ∧ utf8Len before = i := by
  induction s generalizing i with
  | nil => cases h
  | cons d s ih =>
    rw [rfind?] at h
    cases hs : rfind? c s with
    | some j =>
      rw [hs] at h
      cases h
      obtain ⟨before, after, rfl, rfl⟩ := ih hs
      exact ⟨d :: before, after, rfl, utf8Len_cons d before⟩
    | none =>
      rw [hs] at h
      split_ifs at h with hd
      cases h
      exact ⟨[], s, by rw [hd]; rfl, rfl⟩

theorem rfind?_eq_none : rfind? c s = none ↔ c ∉ s := by
  induction s with
  | nil => simp [rfind?]
  | cons d s ih =>
    rw [rfind?, mem_cons, not_or, ← ih]
    cases rfind? c s with
    | some j => simp
    | none => simp [eq_comm]

def isWhitespace (c : Char) : Bool :=
  let n := c.toNat
  (9 ≤ n && n ≤ 13) || n = 0x20 || n = 0x85 || n = 0xA0 || n = 0x1680 ||
    (0x2000 ≤ n && n ≤ 0x200A) || n = 0x2028 || n = 0x2029 || n = 0x202F ||
    n = 0x205F || n = 0x3000

def trim (s : List Char) : List Char :=
  ((s.dropWhile isWhitespace).reverse.dropWhile isWhitespace).reverse

theorem trim_eq_self (h : ∀ c ∈ s, isWhitespace c = false) : trim s = s := by
  have hdrop : ∀ t : List Char, (∀ c ∈ t, isWhitespace c = false) →
      t.dropWhile isWhitespace = t := by
    intro t ht
    cases t with
    | nil => rfl
    | cons c t => exact dropWhile_cons_of_neg (by simp [ht c mem_cons_self])
  rw [trim, hdrop s h, hdrop s.reverse fun c hc => h c (mem_reverse.mp hc),
    reverse_reverse]

def trimEnd (s : List Char) : List Char := s.rdropWhile isWhitespace

theorem trim_eq_rdropWhile (s : List Char) :
    trim s = (s.dropWhile isWhitespace).rdropWhile isWhitespace := rfl

theorem trim_eq_self_iff :
    trim s = s ↔ (∀ c ∈ s.head?, isWhitespace c = false) ∧
      ∀ c ∈ s.getLast?, isWhitespace c = false := by
  have hstart : s.dropWhile isWhitespace = s ↔ ∀ c ∈ s.head?, isWhitespace c = false := by
    cases s with
    | nil => simp
    | cons c s => simp [dropWhile_eq_self_iff]
  have hend : s.rdropWhile isWhitespace = s ↔ ∀ c ∈ s.getLast?, isWhitespace c = false := by
    rw [rdropWhile_eq_self_iff]
    rcases eq_nil_or_concat s with rfl | ⟨s, c, rfl⟩
    · simp
    · simp
  rw [← hstart, ← hend, trim_eq_rdropWhile]
  refine ⟨fun h => ?_, fun ⟨h₁, h₂⟩ => by rw [h₁, h₂]⟩
  -- both steps can only shorten the text
  have hlen := congrArg List.length h
  have hle := (List.rdropWhile_prefix isWhitespace (s.dropWhile isWhitespace)).length_le
  have hle' := (dropWhile_sublist (l := s) isWhitespace).length_le
  have hdrop : s.dropWhile isWhitespace = s :=
    (dropWhile_sublist (l := s) isWhitespace).eq_of_length (by omega)
  exact ⟨hdrop, by rwa [hdrop] at h⟩

theorem trim_cons_of_whitespace (hc : isWhitespace c = true) (s : List Char) :
    trim (c :: s) = trim s := by
  rw [trim, trim, dropWhile_cons_of_pos hc]

theorem trim_concat_of_whitespace (hc : isWhitespace c = true) (s : List Char) :
    trim (s ++ [c]) = trim s := by
  rw [trim_eq_rdropWhile, trim_eq_rdropWhile, dropWhile_append]
  split
  · rename_i hs
    rw [isEmpty_iff.mp hs, dropWhile_cons_of_pos hc, dropWhile_nil]
  · rw [rdropWhile_concat_pos _ _ _ hc]

theorem trim_cons_of_not (hc : isWhitespace c = false) (s : List Char) :
    trim (c :: s) = c :: trimEnd s := by
  rw [trim_eq_rdropWhile, dropWhile_cons_of_neg (by simp [hc]), trimEnd]
  induction s using List.reverseRecOn with
  | nil => simp [List.rdropWhile, hc]
  | append_singleton s d ih =>
    rw [← cons_append, rdropWhile_concat, rdropWhile_concat]
    split
    · exact ih
    · rfl

theorem trim_trim (s : List Char) : trim (trim s) = trim s := by
  induction s with
  | nil => rfl
  | cons c s ih =>
    cases hc : isWhitespace c with
    | true => rw [trim_cons_of_whitespace hc, ih]
    | false =>
      rw [trim_cons_of_not hc, trim_cons_of_not hc, trimEnd, trimEnd,
        rdropWhile_idempotent]

theorem trim_cons_append (hc : isWhitespace c = false) (ht : trim t = t) (hne : t ≠ [])
    (s : List Char) : trim (c :: (s ++ t)) = c :: (s ++ t) := by
  rw [trim_eq_self_iff] at ht ⊢
  refine ⟨by simp [hc], ?_⟩
  rw [← cons_append, getLast?_append_of_ne_nil _ hne]
  exact ht.2

def stripPrefix? (pat s : List Char) : Option (List Char) :=
  if pat.isPrefixOf s then some (s.drop pat.length) else none

theorem stripPrefix?_append (pat s : List Char) : stripPrefix? pat (pat ++ s) = some s := by
  rw [stripPrefix?, if_pos (List.isPrefixOf_iff_prefix.mpr (prefix_append pat s)),
    drop_left]

variable {pat : List Char}

theorem stripPrefix?_eq_some : stripPrefix? pat s = some t ↔ s = pat ++ t := by
  rw [stripPrefix?]
  split
  · rename_i hpre
    obtain ⟨u, rfl⟩ := isPrefixOf_iff_prefix.mp hpre
    rw [drop_left, Option.some.injEq, append_cancel_left_eq, eq_comm]
  · rename_i hpre
    refine ⟨nofun, ?_⟩
    rintro rfl
    exact absurd (List.isPrefixOf_iff_prefix.mpr (prefix_append pat t)) hpre

/-- A line as it is read, backwards, without the carriage return at its end. -/
def dropReturn : List Char → List Char
  | '\r' :: line => line
  | line => line

/-- The lines after a beginning of the first one, which is read backwards. -/
def linesGo : List Char → List Char → List (List Char)
  | [], [] => []
  | line, [] => [line.reverse]
  | line, c :: s =>
    if c = '\n' then (dropReturn line).reverse :: linesGo [] s else linesGo (c :: line) s

def lines (s : List Char) : List (List Char) := linesGo [] s

/-- `contains(pat)`: some suffix of `s` starts with `pat`. -/
def contains (s pat : List Char) : Bool := s.tails.any fun t => pat.isPrefixOf t

/-- A loop that counts the elements it has still to pass over drops them. -/
theorem skip_eq_drop {α β : Type} {f : ℕ → List α → β} (hnil : ∀ n, f n [] = f 0 [])
    (hcons : ∀ n a l, f (n + 1) (a :: l) = f n l) (n : ℕ) (l : List α) :
    f n l = f 0 (l.drop n) := by
  induction l generalizing n with
  | nil => rw [drop_nil, hnil]
  | cons a l ih =>
    cases n with
    | zero => rfl
    | succ n => rw [hcons, ih, drop_succ_cons]

/-- `replace(pat, new)` for a non-empty `pat`; `skip` counts the characters still to be dropped. -/
def replaceGo (pat new : List Char) : ℕ → List Char → List Char
  | _, [] => []
  | skip + 1, _ :: s => replaceGo pat new skip s
  | 0, c :: s =>
    if pat.isPrefixOf (c :: s) then new ++ replaceGo pat new (pat.length - 1) s
    else c :: replaceGo pat new 0 s

/-- `replace(pat, new)`, for a non-empty `pat`. -/
def replace (s pat new : List Char) : List Char := replaceGo pat new 0 s

/-- `split_once(pat)`, for a non-empty `pat`. -/
def splitOnce? (pat : List Char) : List Char → Option (List Char × List Char)
  | [] => none
  | c :: s =>
    if pat.isPrefixOf (c :: s) then some ([], (c :: s).drop pat.length)
    else (splitOnce? pat s).map fun r => (c :: r.1, r.2)

variable {before : List Char}

variable {after : List Char}

theorem splitOnce?_length (h : splitOnce? pat s = some (before, after)) :
    after.length + pat.length ≤ s.length := by
  induction s generalizing before with
  | nil => cases h
  | cons c s ih =>
    rw [splitOnce?] at h
    split at h
    · rename_i hpat
      have hle := (List.isPrefixOf_iff_prefix.mp hpat).length_le
      obtain ⟨-, rfl⟩ := Prod.mk.inj (Option.some.inj h)
      rw [length_drop]
      omega
    · obtain ⟨⟨before', after'⟩, hs, heq⟩ := Option.map_eq_some_iff.mp h
      obtain ⟨-, rfl⟩ := Prod.mk.inj heq
      have hle := ih hs
      rw [length_cons]
      omega

theorem splitOnce?_append (h : splitOnce? pat s = some (before, after)) (t : List Char) :
    splitOnce? pat (s ++ t) = some (before, after ++ t) := by
  induction s generalizing before with
  | nil => cases h
  | cons c s ih =>
    have hlength := splitOnce?_length h
    rw [cons_append, splitOnce?]
    rw [splitOnce?] at h
    split at h
    · rename_i hpat
      have hpre := isPrefixOf_iff_prefix.mp hpat
      cases h
      rw [← cons_append,
        if_pos (List.isPrefixOf_iff_prefix.mpr (hpre.trans (prefix_append _ t))),
        drop_append_of_le_length hpre.length_le]
    · rename_i hpat
      -- the text is long enough to tell that `pat` is not here
      have hnot : ¬ pat.isPrefixOf (c :: (s ++ t)) = true := by
        rw [List.isPrefixOf_iff_prefix, ← cons_append]
        intro hpre
        refine hpat (List.isPrefixOf_iff_prefix.mpr ?_)
        exact prefix_of_prefix_length_le hpre (prefix_append _ t) (by omega)
      obtain ⟨⟨before', after'⟩, hs, heq⟩ := Option.map_eq_some_iff.mp h
      cases heq
      rw [if_neg hnot, ih hs]
      rfl

/-- A text that does not have the first character of `pat` ends where `pat` begins. -/
theorem splitOnce?_of_not_mem {d : Char} {ds s : List Char} (h : d ∉ s) (t : List Char) :
    splitOnce? (d :: ds) (s ++ (d :: ds ++ t)) = some (s, t) := by
  induction s with
  | nil =>
    rw [nil_append, cons_append, splitOnce?, ← cons_append,
      if_pos (List.isPrefixOf_iff_prefix.mpr (prefix_append _ t)), drop_left]
  | cons c s ih =>
    have hne : ¬ (d :: ds).isPrefixOf (c :: (s ++ (d :: ds ++ t))) = true := by
      rw [List.isPrefixOf_iff_prefix, cons_prefix_cons]
      rintro ⟨rfl, -⟩
      exact h mem_cons_self
    rw [cons_append, splitOnce?, if_neg hne, ih fun hs => h (mem_cons_of_mem c hs)]
    rfl

/-- A text in which `pat` does not occur is not split. -/
theorem splitOnce?_eq_none (h : ¬ pat <:+: s) : splitOnce? pat s = none := by
  induction s with
  | nil => rfl
  | cons c s ih =>
    rw [splitOnce?, if_neg, ih]
    · rfl
    · exact fun hs => h (hs.trans (suffix_cons c s).isInfix)
    · rw [List.isPrefixOf_iff_prefix]
      exact fun hpre => h hpre.isInfix

theorem splitOnce?_eq_some (hne : pat ≠ []) (h : splitOnce? pat s = some (before, after)) :
    s = before ++ (pat ++ after) ∧ ¬ pat <:+: before := by
  induction s generalizing before with
  | nil => cases h
  | cons c s ih =>
    rw [splitOnce?] at h
    split at h
    · rename_i hpat
      obtain ⟨t, ht⟩ := isPrefixOf_iff_prefix.mp hpat
      cases h
      rw [← ht, drop_left]
      exact ⟨rfl, fun hpart => hne (infix_nil.mp hpart)⟩
    · rename_i hpat
      obtain ⟨⟨before', after'⟩, hs, heq⟩ := Option.map_eq_some_iff.mp h
      cases heq
      obtain ⟨rfl, hfirst⟩ := ih hs
      refine ⟨rfl, fun hpart => ?_⟩
      rcases infix_cons_iff.mp hpart with hpre | hpart
      · exact hpat (List.isPrefixOf_iff_prefix.mpr
          (hpre.trans (prefix_append (c :: before') (pat ++ after'))))
      · exact hfirst hpart

theorem splitOnce?_cut (hne : pat ≠ []) (h : splitOnce? pat s = some (before, after)) :
    splitOnce? pat (before ++ pat) = some (before, []) := by
  induction s generalizing before with
  | nil => cases h
  | cons c s ih =>
    have hs := (splitOnce?_eq_some hne h).1
    rw [splitOnce?] at h
    split at h
    · cases h
      obtain ⟨d, ds, rfl⟩ := exists_cons_of_ne_nil hne
      rw [nil_append, splitOnce?,
        if_pos (List.isPrefixOf_iff_prefix.mpr (prefix_refl _)), drop_length]
    · rename_i hno
      obtain ⟨⟨before', after'⟩, hrest, heq⟩ := Option.map_eq_some_iff.mp h
      cases heq
      rw [cons_append, splitOnce?, if_neg, ih hrest]
      · rfl
      · intro hpre
        refine hno (List.isPrefixOf_iff_prefix.mpr ?_)
        rw [hs, ← append_assoc]
        exact (List.isPrefixOf_iff_prefix.mp hpre).trans (prefix_append _ _)

theorem splitOnce?_eq_none_iff (hne : pat ≠ []) : splitOnce? pat s = none ↔ ¬ pat <:+: s := by
  refine ⟨fun h hpart => ?_, splitOnce?_eq_none⟩
  induction s with
  | nil => exact hne (infix_nil.mp hpart)
  | cons c s ih =>
    rw [splitOnce?] at h
    split at h
    · cases h
    · rename_i hpat
      rcases infix_cons_iff.mp hpart with hpre | hpart
      · exact hpat (List.isPrefixOf_iff_prefix.mpr hpre)
      · exact ih (Option.map_eq_none_iff.mp h) hpart

theorem contains_iff : contains s pat = true ↔ pat <:+: s := by
  simp only [contains, any_eq_true, mem_tails, isPrefixOf_iff_prefix,
    infix_iff_prefix_suffix]
  exact ⟨fun ⟨t, ht, hpat⟩ => ⟨t, hpat, ht⟩, fun ⟨t, hpat, ht⟩ => ⟨t, ht, hpat⟩⟩

theorem lines_of_not_mem (h : '\n' ∉ s) (hne : s ≠ []) : lines s = [s] := by
  have hgo : ∀ (s line : List Char), '\n' ∉ s → line ++ s ≠ [] →
      linesGo line s = [line.reverse ++ s] := by
    intro s
    induction s with
    | nil =>
      intro line _ hline
      cases line with
      | nil => exact absurd rfl hline
      | cons c line => rw [linesGo, append_nil]; exact nofun
    | cons c s ih =>
      intro line hs _
      rw [mem_cons, not_or] at hs
      rw [linesGo, if_neg (Ne.symm hs.1), ih (c :: line) hs.2 (by simp), reverse_cons,
        append_assoc]
      rfl
  exact hgo s [] h hne

/-- `split(pat).next()`, for a non-empty `pat`. -/
def firstPiece (pat s : List Char) : List Char := ((splitOnce? pat s).map (·.1)).getD s

/-- `split(pat).nth(1)`, for a non-empty `pat`. -/
def secondPiece? (pat s : List Char) : Option (List Char) :=
  (splitOnce? pat s).map fun r => firstPiece pat r.2

theorem firstPiece_cons (pat : List Char) (c : Char) (s : List Char) :
    firstPiece pat (c :: s) =
      if pat.isPrefixOf (c :: s) then [] else c :: firstPiece pat s := by
  rw [firstPiece, splitOnce?]
  split
  · rfl
  · rw [firstPiece]
    cases splitOnce? pat s <;> rfl

/-- The maximal non-empty parts of a text without separators. -/
def wordsBy (sep : Char → Bool) : List Char → List (List Char)
  | [] => []
  | [c] => if sep c then [] else [[c]]
  | c :: d :: s =>
    if sep c then wordsBy sep (d :: s)
    else if sep d then [c] :: wordsBy sep (d :: s)
    else
      match wordsBy sep (d :: s) with
      | [] => [[c]]
      | w :: ws => (c :: w) :: ws

def splitWhitespace (s : List Char) : List (List Char) := wordsBy isWhitespace s

theorem takeWhile_append_stop {p : Char → Bool} (ht : t.takeWhile p = []) :
    (s ++ t).takeWhile p = s.takeWhile p := by
  rw [takeWhile_append, ht, append_nil]
  split
  · rename_i hlen
    exact ((List.takeWhile_prefix p).eq_of_length hlen).symm
  · rfl

/-- Reading on to a character does not depend on whether the text was split before. -/
theorem takeWhile_firstPiece {p : Char → Bool} (hd : p d = false) (pat : List Char) :
    ∀ s, (firstPiece (d :: pat) s).takeWhile p = s.takeWhile p := by
  intro s
  induction s with
  | nil => rfl
  | cons c s ih =>
    rw [firstPiece_cons]
    split
    · rename_i hpre
      rw [List.isPrefixOf_iff_prefix, cons_prefix_cons] at hpre
      rw [← hpre.1, takeWhile_cons_of_neg (by simp [hd])]
      rfl
    · rw [takeWhile_cons, takeWhile_cons, ih]

end AlloyAgent.RustStr
