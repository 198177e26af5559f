import AlloyAgent.Repetition

/-!
# Alternating tool calls

The loop guard (`openfang-runtime/src/loop_guard.rs`) also looks for calls that alternate, A-B-A-B
or A-B-C-A-B-C.

* `detectPattern`, `countPingPongRepeats`: the two functions;
* `pingPong_agree`: a detected pattern is there as often as is counted.
-/

namespace AlloyAgent.PingPong

open List Option

variable {α : Type} [DecidableEq α]

/-- Check for a pattern of length 2 (A-B-A-B-A-B) in the last six entries. -/
def detectTwo (calls : List α) : Option (Option (List α)) :=
  let len := calls.length
  if 6 ≤ len then do
    let tail := calls.drop (len - 6)
    let a ← tail[0]?
    let b ← tail[1]?
    let t2 ← tail[2]?
    let t3 ← tail[3]?
    let t4 ← tail[4]?
    let t5 ← tail[5]?
    return if a ≠ b ∧ t2 = a ∧ t3 = b ∧ t4 = a ∧ t5 = b then some [a, b] else none
  else some none

/-- Check for a pattern of length 3 (A-B-C-A-B-C-A-B-C) in the last nine entries. -/
def detectThree (calls : List α) : Option (Option (List α)) :=
  let len := calls.length
  if 9 ≤ len then do
    let tail := calls.drop (len - 9)
    let a ← tail[0]?
    let b ← tail[1]?
    let c ← tail[2]?
    let t3 ← tail[3]?
    let t4 ← tail[4]?
    let t5 ← tail[5]?
    let t6 ← tail[6]?
    let t7 ← tail[7]?
    let t8 ← tail[8]?
    -- not all the same: that is just repetition, not ping-pong
    return if ¬ (a = b ∧ b = c) ∧ t3 = a ∧ t4 = b ∧ t5 = c ∧ t6 = a ∧ t7 = b ∧ t8 = c then
      some [a, b, c] else none
  else some none

/-- The pattern that `detect_ping_pong_impl` finds. -/
def detectPattern (calls : List α) : Option (Option (List α)) := do
  match ← detectTwo calls with
  | some pattern => return some pattern
  | none => detectThree calls

/-- Go back from `i`, two entries at a time. -/
def countTwo (calls : List α) (a b : α) : ℕ → ℕ → Option ℕ
  | repeats, i + 2 => do
    let x ← calls[i]?
    let y ← calls[i + 1]?
    if x = a ∧ y = b then countTwo calls a b (repeats + 1) i else some repeats
  | repeats, _ => some repeats

/-- Go back from `i`, three entries at a time. -/
def countThree (calls : List α) (a b c : α) : ℕ → ℕ → Option ℕ
  | repeats, i + 3 => do
    let x ← calls[i]?
    let y ← calls[i + 1]?
    let z ← calls[i + 2]?
    if x = a ∧ y = b ∧ z = c then countThree calls a b c (repeats + 1) i else some repeats
  | repeats, _ => some repeats

/-- The repeats of the last two entries, if they differ. -/
def repeatsOfTwo (calls : List α) : Option ℕ :=
  let len := calls.length
  if 4 ≤ len then do
    let a ← calls[len - 2]?
    let b ← calls[len - 1]?
    if a ≠ b then countTwo calls a b 0 len else some 0
  else some 0

/-- The repeats of the last three entries, if they are not all the same. -/
def repeatsOfThree (calls : List α) : Option ℕ :=
  let len := calls.length
  if 6 ≤ len then do
    let a ← calls[len - 3]?
    let b ← calls[len - 2]?
    let c ← calls[len - 1]?
    if ¬ (a = b ∧ b = c) then countThree calls a b c 0 len else some 0
  else some 0

/-- Count how many full repeats of the detected pattern exist. -/
def countPingPongRepeats (calls : List α) : Option ℕ := do
  let two ← repeatsOfTwo calls
  if 2 ≤ two then return two
  let three ← repeatsOfThree calls
  if 2 ≤ three then return three
  return 0

section

variable {calls : List α} {a b c : α} {i : ℕ}

theorem countTwo_spec (repeats : ℕ) (h : i ≤ calls.length) :
    ∃ n, countTwo calls a b repeats i = some (repeats + n) ∧
      RepeatCount [a, b] (calls.take i) n := by
  refine exists_repeatCount (by simp) (fun r i hi => ?_) (fun r front block rest hcalls h => ?_)
    repeats h
  · match i, hi with
    | 0, _ | 1, _ => rfl
  · match block, h with
    | [x, y], _ => simp [countTwo, hcalls]

theorem countThree_spec (repeats : ℕ) (h : i ≤ calls.length) :
    ∃ n, countThree calls a b c repeats i = some (repeats + n) ∧
      RepeatCount [a, b, c] (calls.take i) n := by
  refine exists_repeatCount (by simp) (fun r i hi => ?_) (fun r front block rest hcalls h => ?_)
    repeats h
  · match i, hi with
    | 0, _ | 1, _ | 2, _ => rfl
  · match block, h with
    | [x, y, z], _ => simp [countThree, hcalls]

end

/-! ## The end of the list -/

section

theorem detectTwo_spec (calls : List α) : ∃ found, detectTwo calls = some found ∧
    ∀ pattern, found = some pattern → ∃ front a b,
      pattern = [a, b] ∧ a ≠ b ∧ calls = front ++ [a, b, a, b, a, b] := by
  by_cases hlen : 6 ≤ calls.length
  · obtain ⟨front, last, rfl, hlast⟩ := exists_end hlen
    match last, hlast with
    | [a, b, t2, t3, t4, t5], _ =>
      have htail : (front ++ [a, b, t2, t3, t4, t5]).drop
          ((front ++ [a, b, t2, t3, t4, t5]).length - 6) = [a, b, t2, t3, t4, t5] := by
        simp
      simp only [detectTwo, if_pos hlen, htail]
      refine ⟨_, rfl, fun pattern h => ?_⟩
      split_ifs at h with hmatch
      obtain ⟨hne, rfl, rfl, rfl, rfl⟩ := hmatch
      exact ⟨front, _, _, (some.inj h).symm, hne, rfl⟩
  · refine ⟨none, ?_, fun pattern h => nomatch h⟩
    rw [detectTwo, if_neg hlen]

theorem detectThree_spec (calls : List α) : ∃ found, detectThree calls = some found ∧
    ∀ pattern, found = some pattern → ∃ front a b c,
      pattern = [a, b, c] ∧ ¬ (a = b ∧ b = c) ∧
        calls = front ++ [a, b, c, a, b, c, a, b, c] := by
  by_cases hlen : 9 ≤ calls.length
  · obtain ⟨front, last, rfl, hlast⟩ := exists_end hlen
    match last, hlast with
    | [a, b, c, t3, t4, t5, t6, t7, t8], _ =>
      have htail : (front ++ [a, b, c, t3, t4, t5, t6, t7, t8]).drop
          ((front ++ [a, b, c, t3, t4, t5, t6, t7, t8]).length - 9) =
            [a, b, c, t3, t4, t5, t6, t7, t8] := by
        simp
      simp only [detectThree, if_pos hlen, htail]
      refine ⟨_, rfl, fun pattern h => ?_⟩
      split_ifs at h with hmatch
      obtain ⟨hne, rfl, rfl, rfl, rfl, rfl, rfl⟩ := hmatch
      exact ⟨front, _, _, _, (some.inj h).symm, hne, rfl⟩
  · refine ⟨none, ?_, fun pattern h => nomatch h⟩
    rw [detectThree, if_neg hlen]

theorem repeatsOfTwo_spec (calls : List α) : ∃ n, repeatsOfTwo calls = some n ∧
    ∀ front a b, calls = front ++ [a, b] → 2 ≤ front.length →
      if a = b then n = 0 else RepeatCount [a, b] calls n := by
  by_cases hlen : 4 ≤ calls.length
  · obtain ⟨front, last, rfl, hlast⟩ := exists_end (show 2 ≤ calls.length by omega)
    match last, hlast with
    | [a, b], _ =>
      obtain ⟨n, hn, hcount⟩ := @countTwo_spec α _ (front ++ [a, b]) a b _ 0 le_rfl
      rw [take_length] at hcount
      refine ⟨if a = b then 0 else n, ?_, fun front' a' b' heq _ => ?_⟩
      · rw [length_append] at hn
        rw [repeatsOfTwo, if_pos hlen, length_append]
        split_ifs with hab <;> simp_all
      · cases (append_inj' heq rfl).2
        split_ifs
        · rfl
        · exact hcount
  · refine ⟨0, by rw [repeatsOfTwo, if_neg hlen], fun front a b heq hfront => absurd ?_ hlen⟩
    rw [heq, length_append]
    exact Nat.add_le_add_right hfront 2

theorem repeatsOfThree_spec (calls : List α) : ∃ n, repeatsOfThree calls = some n ∧
    ∀ front a b c, calls = front ++ [a, b, c] → 3 ≤ front.length → ¬ (a = b ∧ b = c) →
      RepeatCount [a, b, c] calls n := by
  by_cases hlen : 6 ≤ calls.length
  · obtain ⟨front, last, rfl, hlast⟩ := exists_end (show 3 ≤ calls.length by omega)
    match last, hlast with
    | [a, b, c], _ =>
      obtain ⟨n, hn, hcount⟩ := @countThree_spec α _ (front ++ [a, b, c]) a b c _ 0 le_rfl
      rw [take_length] at hcount
      refine ⟨if a = b ∧ b = c then 0 else n, ?_, fun front' a' b' c' heq _ hne => ?_⟩
      · rw [length_append] at hn
        rw [repeatsOfThree, if_pos hlen, length_append]
        split_ifs with hab <;> simp_all
      · cases (append_inj' heq rfl).2
        rwa [if_neg hne]
  · refine ⟨0, by rw [repeatsOfThree, if_neg hlen], fun front a b c heq hfront => absurd ?_ hlen⟩
    rw [heq, length_append]
    exact Nat.add_le_add_right hfront 3

theorem exists_countPingPongRepeats (calls : List α) :
    ∃ n, countPingPongRepeats calls = some n := by
  obtain ⟨m, hm, -⟩ := repeatsOfTwo_spec calls
  obtain ⟨n, hn, -⟩ := repeatsOfThree_spec calls
  rw [countPingPongRepeats, hm]
  simp only [bind, bind_some, hn]
  split_ifs <;> exact ⟨_, rfl⟩

end

/-! ## Detection and counting -/

section

variable {front calls : List α} {a b c : α}

theorem count_of_two (hne : a ≠ b) (hcalls : calls = front ++ [a, b, a, b, a, b]) :
    ∃ n, countPingPongRepeats calls = some n ∧ 3 ≤ n ∧ RepeatCount [a, b] calls n := by
  obtain ⟨n, hn, hcount⟩ := repeatsOfTwo_spec calls
  replace hcount := hcount (front ++ [a, b, a, b]) a b (by simp [hcalls]) (by simp)
  rw [if_neg hne] at hcount
  have hthree : 3 ≤ n := (hcount 3).mp ⟨front, hcalls.symm⟩
  refine ⟨n, ?_, hthree, hcount⟩
  rw [countPingPongRepeats, hn]
  exact if_pos (Nat.le_of_succ_le hthree)

theorem repeatsOfTwo_of_three (hcalls : calls = front ++ [a, b, c, a, b, c, a, b, c]) :
    ∃ m, repeatsOfTwo calls = some m ∧ m < 2 := by
  obtain ⟨m, hm, hcount⟩ := repeatsOfTwo_spec calls
  replace hcount := hcount (front ++ [a, b, c, a, b, c, a]) b c (by simp [hcalls]) (by simp)
  refine ⟨m, hm, ?_⟩
  split_ifs at hcount with hbc
  · omega
  · by_contra hle
    -- in front of the last two there would be the same two, but there are `c` and `a`
    obtain ⟨t, ht⟩ := (hcount 2).mpr (by omega)
    have hends : t ++ [b, c, b, c] = front ++ [a, b, c, a, b] ++ [c, a, b, c] := by
      rw [append_assoc]
      exact ht.trans hcalls
    have hlast := (append_inj' hends rfl).2
    exact hbc (List.cons.inj hlast).1

theorem count_of_three (hne : ¬ (a = b ∧ b = c))
    (hcalls : calls = front ++ [a, b, c, a, b, c, a, b, c]) :
    ∃ n, countPingPongRepeats calls = some n ∧ 3 ≤ n ∧ RepeatCount [a, b, c] calls n := by
  obtain ⟨m, hm, hlt⟩ := repeatsOfTwo_of_three hcalls
  obtain ⟨n, hn, hcount⟩ := repeatsOfThree_spec calls
  replace hcount := hcount (front ++ [a, b, c, a, b, c]) a b c (by simp [hcalls]) (by simp) hne
  have hthree : 3 ≤ n := (hcount 3).mp ⟨front, hcalls.symm⟩
  refine ⟨n, ?_, hthree, hcount⟩
  rw [countPingPongRepeats, hm]
  simp [hn, Nat.le_of_succ_le hthree, Nat.not_le.mpr hlt]

end

theorem exists_detectPattern (calls : List α) : ∃ found, detectPattern calls = some found := by
  obtain ⟨two, htwo, -⟩ := detectTwo_spec calls
  obtain ⟨three, hthree, -⟩ := detectThree_spec calls
  rw [detectPattern, htwo]
  cases two with
  | none => exact ⟨three, hthree⟩
  | some pattern => exact ⟨some pattern, rfl⟩

/-- **Detection and counting agree**: a detected pattern is there as often as is counted. -/
theorem pingPong_agree (calls : List α) :
    ∃ found n, detectPattern calls = some found ∧ countPingPongRepeats calls = some n ∧
      ∀ pattern, found = some pattern →
        (pattern.length = 2 ∨ pattern.length = 3) ∧ 3 ≤ n ∧
          ∀ m, (List.replicate m pattern).flatten <:+ calls ↔ m ≤ n := by
  obtain ⟨two, htwo, htwo'⟩ := detectTwo_spec calls
  obtain ⟨three, hthree, hthree'⟩ := detectThree_spec calls
  rw [detectPattern, htwo]
  cases two with
  | some pattern =>
    obtain ⟨front, a, b, rfl, hne, hcalls⟩ := htwo' pattern rfl
    obtain ⟨n, hn, hle, hcount⟩ := count_of_two hne hcalls
    refine ⟨some [a, b], n, rfl, hn, ?_⟩
    intro pattern h
    cases h
    exact ⟨.inl rfl, hle, hcount⟩
  | none =>
    cases three with
    | some pattern =>
      obtain ⟨front, a, b, c, rfl, hne, hcalls⟩ := hthree' pattern rfl
      obtain ⟨n, hn, hle, hcount⟩ := count_of_three hne hcalls
      refine ⟨some [a, b, c], n, hthree, hn, ?_⟩
      intro pattern h
      cases h
      exact ⟨.inr rfl, hle, hcount⟩
    | none =>
      obtain ⟨n, hn⟩ := exists_countPingPongRepeats calls
      exact ⟨none, n, hthree, hn, fun pattern h => nomatch h⟩

/-- Three calls in a cycle, after another one. -/
theorem cycle_of_three_counted :
    detectPattern [5, 0, 1, 2, 0, 1, 2, 0, 1, 2] = some (some [0, 1, 2]) ∧
      ∃ n, countPingPongRepeats [5, 0, 1, 2, 0, 1, 2, 0, 1, 2] = some n ∧ 3 ≤ n ∧
        ∀ m, (List.replicate m [0, 1, 2]).flatten <:+ [5, 0, 1, 2, 0, 1, 2, 0, 1, 2] ↔ m ≤ n := by
  have hdetect : detectPattern [5, 0, 1, 2, 0, 1, 2, 0, 1, 2] = some (some [0, 1, 2]) := by decide
  obtain ⟨found, n, hfound, hn, h⟩ := pingPong_agree [5, 0, 1, 2, 0, 1, 2, 0, 1, 2]
  cases hfound.symm.trans hdetect
  obtain ⟨-, hle, hcount⟩ := h [0, 1, 2] rfl
  exact ⟨hdetect, n, hn, hle, hcount⟩

end AlloyAgent.PingPong
