import AlloyAgent.RustStr

/-!
# Splitting a message

`split_message` of `openfang-channels/src/types.rs` cuts a text into chunks for a channel with a
limit on the length of a message.

* `cut_spec`: one round; `splitLoop_ne_outOfFuel`: the loop ends;
* `split_faithful_iff`: the texts that are split without a panic or a loss.
-/

namespace AlloyAgent.SplitMessage

open List RustStr

/-- One round on a text that is too long; `none` if a slice ends inside a character. -/
def cut (maxLen : ℕ) (remaining : List Char) : Option (List Char × List Char) :=
  (takeBytes? maxLen remaining).bind fun window =>
    let splitAt := (rfind? '\n' window).getD maxLen
    (takeBytes? splitAt remaining).bind fun chunk =>
      (dropBytes? splitAt remaining).map fun rest => (chunk, rest)

/-- Skip the newline (and optional carriage return) after the cut. -/
def skipTerminator (rest : List Char) : List Char :=
  ((stripPrefix? "\r\n".toList rest).or (stripPrefix? "\n".toList rest)).getD rest

inductive Failure where
  /-- byte index is not a char boundary -/
  | panic
  | outOfFuel
  deriving DecidableEq

/-- The loop, for a number of rounds at most. -/
def splitLoop (maxLen : ℕ) : ℕ → List Char → Except Failure (List (List Char))
  | 0, _ => .error .outOfFuel
  | fuel + 1, remaining =>
    if remaining.isEmpty then .ok []
    else if utf8Len remaining ≤ maxLen then .ok [remaining]
    else
      match cut maxLen remaining with
      | none => .error .panic
      | some (chunk, rest) =>
        (splitLoop maxLen fuel (skipTerminator rest)).map fun chunks => chunk :: chunks

def splitMessage (maxLen fuel : ℕ) (text : List Char) : Except Failure (List (List Char)) :=
  if utf8Len text ≤ maxLen then .ok [text] else splitLoop maxLen fuel text

/-! ## What is asked of the chunks -/

def IsTerminator (term : List Char) : Prop := term = [] ∨ term = ['\n'] ∨ term = ['\r', '\n']

/-- The chunks make up the text, with terminators between them. -/
inductive Rejoins : List (List Char) → List Char → Prop
  | nil : Rejoins [] []
  | cons {chunk term rest : List Char} {chunks : List (List Char)} (hterm : IsTerminator term)
      (hrest : Rejoins chunks rest) : Rejoins (chunk :: chunks) (chunk ++ (term ++ rest))

/-- A text is split as it should be. -/
structure Faithful (maxLen : ℕ) (text : List Char) (chunks : List (List Char)) : Prop where
  ne_nil : text ≠ [] → ∀ chunk ∈ chunks, chunk ≠ []
  size_le : ∀ chunk ∈ chunks, utf8Len chunk ≤ maxLen
  rejoins : Rejoins chunks text

/-- In every remainder a character ends at the limit and no newline comes first. -/
inductive Clean (maxLen : ℕ) : List Char → Prop
  | short {remaining : List Char} (h : utf8Len remaining ≤ maxLen) : Clean maxLen remaining
  | cut {remaining window : List Char} (hlong : maxLen < utf8Len remaining)
      (hboundary : takeBytes? maxLen remaining = some window)
      (hnewline : rfind? '\n' window ≠ some 0)
      (hnext : ∀ chunk rest, cut maxLen remaining = some (chunk, rest) →
        Clean maxLen (skipTerminator rest)) : Clean maxLen remaining

theorem skipTerminator_spec (rest : List Char) :
    ∃ term, IsTerminator term ∧ rest = term ++ skipTerminator rest := by
  have hstrip : ∀ {pat t : List Char}, stripPrefix? pat rest = some t → rest = pat ++ t := by
    intro pat t h
    rw [stripPrefix?] at h
    split_ifs at h with hpat
    obtain ⟨u, rfl⟩ := isPrefixOf_iff_prefix.mp hpat
    rw [drop_left] at h
    rw [Option.some.inj h]
  rw [skipTerminator]
  cases hcrlf : stripPrefix? "\r\n".toList rest with
  | some t => exact ⟨_, .inr (.inr rfl), hstrip hcrlf⟩
  | none =>
    cases hlf : stripPrefix? "\n".toList rest with
    | some t => exact ⟨_, .inr (.inl rfl), hstrip hlf⟩
    | none => exact ⟨[], .inl rfl, rfl⟩

theorem skipTerminator_newline (rest : List Char) : skipTerminator ('\n' :: rest) = rest := by
  rw [skipTerminator, stripPrefix?, if_neg (by simp)]
  exact congrArg (fun o => o.getD ('\n' :: rest)) (stripPrefix?_append ['\n'] rest)

/-- **One round of the loop** is possible if a character ends at the limit. -/
theorem cut_spec (hmax : 0 < maxLen) (hwindow : takeBytes? maxLen remaining = some window) :
    ∃ chunk rest, cut maxLen remaining = some (chunk, rest) ∧ remaining = chunk ++ rest ∧
      utf8Len chunk ≤ maxLen ∧ (chunk = [] ↔ rfind? '\n' window = some 0) ∧
      (skipTerminator rest).length < remaining.length := by
  have hslices : ∀ chunk rest : List Char, remaining = chunk ++ rest →
      (rfind? '\n' window).getD maxLen = utf8Len chunk →
      cut maxLen remaining = some (chunk, rest) := by
    rintro chunk rest rfl hat
    rw [cut, hwindow, Option.bind_some]
    dsimp only
    rw [hat, takeBytes?_append, Option.bind_some, dropBytes?_append, Option.map_some]
  obtain ⟨tail, hsplit, hlen⟩ := takeBytes?_eq_some.mp hwindow
  cases hfind : rfind? '\n' window with
  | none =>
    -- a hard cut at the limit
    refine ⟨window, tail, hslices _ _ hsplit (by rw [hfind, hlen]; rfl), hsplit, hlen.le, ?_, ?_⟩
    · refine ⟨?_, nofun⟩
      rintro rfl
      rw [utf8Len_nil] at hlen
      omega
    · obtain ⟨term, -, hterm⟩ := skipTerminator_spec tail
      have hwindow_pos : 0 < window.length := by
        rw [length_pos_iff]
        rintro rfl
        rw [utf8Len_nil] at hlen
        omega
      have hlength := congrArg List.length hterm
      rw [length_append] at hlength
      rw [hsplit, length_append]
      omega
  | some i =>
    -- a cut before the last newline, which is dropped
    obtain ⟨before, after, rfl, rfl⟩ := rfind?_eq_some hfind
    have hsplit' : remaining = before ++ ('\n' :: after ++ tail) := by
      rw [hsplit, append_assoc]
    refine ⟨before, '\n' :: after ++ tail, hslices _ _ hsplit' (by rw [hfind]; rfl), hsplit', ?_,
      ?_, ?_⟩
    · rw [utf8Len_append] at hlen
      omega
    · rw [Option.some.injEq, utf8Len_eq_zero]
    · rw [hsplit', cons_append, skipTerminator_newline]
      simp only [length_append, length_cons]
      omega

section

variable {maxLen : ℕ} {remaining : List Char}

theorem splitLoop_short (h : utf8Len remaining ≤ maxLen) :
    splitLoop maxLen (fuel + 1) remaining =
      .ok (if remaining.isEmpty then [] else [remaining]) := by
  rw [splitLoop]
  split_ifs <;> rfl

theorem splitLoop_long (h : maxLen < utf8Len remaining) :
    splitLoop maxLen (fuel + 1) remaining =
      match cut maxLen remaining with
      | none => .error .panic
      | some (chunk, rest) =>
        (splitLoop maxLen fuel (skipTerminator rest)).map fun chunks => chunk :: chunks := by
  have hne : ¬ remaining.isEmpty = true := by
    rw [List.isEmpty_iff]
    rintro rfl
    rw [utf8Len_nil] at h
    omega
  rw [splitLoop, if_neg hne, if_neg (by omega)]

theorem cut_eq_none (h : takeBytes? maxLen remaining = none) : cut maxLen remaining = none := by
  rw [cut, h, Option.bind_none]

/-- **The loop ends.** By induction on the rounds: each one makes the remainder shorter. -/
theorem splitLoop_ne_outOfFuel (hmax : 0 < maxLen) (fuel : ℕ) :
    ∀ remaining : List Char, remaining.length < fuel →
      splitLoop maxLen fuel remaining ≠ .error .outOfFuel := by
  induction fuel with
  | zero =>
    intro remaining h
    omega
  | succ fuel ih =>
    intro remaining hfuel
    rcases Nat.lt_or_ge maxLen (utf8Len remaining) with hlong | hshort
    · rw [splitLoop_long hlong]
      cases hwindow : takeBytes? maxLen remaining with
      | none =>
        rw [cut_eq_none hwindow]
        exact nofun
      | some window =>
        obtain ⟨chunk, rest, hcut, -, -, -, hlt⟩ := cut_spec hmax hwindow
        have hrest := ih (skipTerminator rest) (by omega)
        rw [hcut]
        dsimp only
        cases hloop : splitLoop maxLen fuel (skipTerminator rest) with
        | ok chunks => exact nofun
        | error e =>
          intro herror
          cases herror
          exact hrest hloop
    · rw [splitLoop_short hshort]
      exact nofun

/-- What the loop owes for a remainder: non-empty chunks. -/
structure Splits (maxLen : ℕ) (remaining : List Char) (chunks : List (List Char)) : Prop where
  ne_nil : ∀ chunk ∈ chunks, chunk ≠ []
  size_le : ∀ chunk ∈ chunks, utf8Len chunk ≤ maxLen
  rejoins : Rejoins chunks remaining

theorem rejoins_singleton (text : List Char) : Rejoins [text] text := by
  have h := @Rejoins.cons text [] [] [] (.inl rfl) .nil
  rwa [append_nil, append_nil] at h

/-- A clean remainder is split. By induction on the rounds. -/
theorem splits_of_clean (hmax : 0 < maxLen) (fuel : ℕ) :
    ∀ remaining : List Char, remaining.length < fuel → Clean maxLen remaining →
      ∃ chunks, splitLoop maxLen fuel remaining = .ok chunks ∧
        Splits maxLen remaining chunks := by
  induction fuel with
  | zero =>
    intro remaining h
    omega
  | succ fuel ih =>
    intro remaining hfuel hclean
    cases hclean with
    | short hshort =>
      rw [splitLoop_short hshort]
      refine ⟨_, rfl, ?_⟩
      split_ifs with hempty
      · rw [isEmpty_iff.mp hempty]
        exact ⟨nofun, nofun, .nil⟩
      · rw [List.isEmpty_iff] at hempty
        refine ⟨?_, ?_, rejoins_singleton remaining⟩ <;> rw [forall_mem_singleton]
        · exact hempty
        · exact hshort
    | cut hlong hwindow hnewline hnext =>
      obtain ⟨chunk, rest, hcut, hsplit, hsize, hnil, hlt⟩ := cut_spec hmax hwindow
      obtain ⟨chunks, hloop, hsplits⟩ := ih _ (by omega) (hnext chunk rest hcut)
      obtain ⟨term, hterm, hrest⟩ := skipTerminator_spec rest
      rw [splitLoop_long hlong, hcut]
      dsimp only
      rw [hloop]
      refine ⟨_, rfl, ?_, ?_, ?_⟩
      · rw [forall_mem_cons]
        exact ⟨fun h => hnewline (hnil.mp h), hsplits.ne_nil⟩
      · rw [forall_mem_cons]
        exact ⟨hsize, hsplits.size_le⟩
      · rw [hsplit, hrest]
        exact .cons hterm hsplits.rejoins

theorem clean_of_splits (hmax : 0 < maxLen) (fuel : ℕ) :
    ∀ (remaining : List Char) (chunks : List (List Char)),
      splitLoop maxLen fuel remaining = .ok chunks → (∀ chunk ∈ chunks, chunk ≠ []) →
      Clean maxLen remaining := by
  induction fuel with
  | zero => exact nofun
  | succ fuel ih =>
    intro remaining chunks hloop hne
    rcases Nat.lt_or_ge maxLen (utf8Len remaining) with hlong | hshort
    · rw [splitLoop_long hlong] at hloop
      cases hwindow : takeBytes? maxLen remaining with
      | none =>
        rw [cut_eq_none hwindow] at hloop
        cases hloop
      | some window =>
        obtain ⟨chunk, rest, hcut, -, -, hnil, -⟩ := cut_spec hmax hwindow
        rw [hcut] at hloop
        dsimp only at hloop
        cases hrest : splitLoop maxLen fuel (skipTerminator rest) with
        | error e =>
          rw [hrest] at hloop
          cases hloop
        | ok chunks' =>
          rw [hrest] at hloop
          cases hloop
          rw [forall_mem_cons] at hne
          refine .cut hlong hwindow (fun h => hne.1 (hnil.mpr h)) fun chunk' rest' hcut' => ?_
          rw [hcut] at hcut'
          cases hcut'
          exact ih _ _ hrest hne.2
    · exact .short hshort

/-- **The splitting ends, and when it is as it should be.** -/
theorem split_faithful_iff (hmax : 0 < maxLen) {fuel : ℕ} {text : List Char}
    (hfuel : text.length < fuel) :
    splitMessage maxLen fuel text ≠ .error .outOfFuel ∧
      ((∃ chunks, splitMessage maxLen fuel text = .ok chunks ∧ Faithful maxLen text chunks) ↔
        Clean maxLen text) := by
  rw [splitMessage]
  split_ifs with hshort
  · refine ⟨nofun, fun _ => .short hshort, fun _ => ⟨[text], rfl, fun hne => ?_, ?_, ?_⟩⟩
    · rw [forall_mem_singleton]
      exact hne
    · rw [forall_mem_singleton]
      exact hshort
    · exact rejoins_singleton text
  · have hne : text ≠ [] := by
      rintro rfl
      exact hshort (Nat.zero_le maxLen)
    refine ⟨splitLoop_ne_outOfFuel hmax fuel text hfuel,
      fun ⟨chunks, hloop, h⟩ => clean_of_splits hmax fuel text chunks hloop (h.ne_nil hne),
      fun hclean => ?_⟩
    obtain ⟨chunks, hloop, h⟩ := splits_of_clean hmax fuel text hfuel hclean
    exact ⟨chunks, hloop, fun _ => h.ne_nil, h.size_le, h.rejoins⟩

end

/-- A text of two lines. -/
theorem two_lines_split :
    ∃ chunks, splitMessage 8 12 "hello\nworld".toList = .ok chunks ∧
      Faithful 8 "hello\nworld".toList chunks := by
  apply (split_faithful_iff (by decide) (by decide)).2.mpr
  refine @Clean.cut 8 _ "hello\nwo".toList (by decide) (by decide) (by decide) ?_
  rintro chunk rest ⟨⟩
  exact .short (by decide)

/-- The limit is inside a character, or after a newline at the beginning. -/
theorem split_not_faithful :
    splitMessage 4 100 "abcé".toList = .error .panic ∧
      splitMessage 4 100 "\nabcd".toList = .ok [[], "abcd".toList] := by
  decide

end AlloyAgent.SplitMessage
