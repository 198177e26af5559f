import AlloyAgent.Transition
import Mathlib.Data.List.Nodup

/-!
# The table of isolations

`libasvisor/src/isolation/mod.rs` of AlloyStack. An isolation gets its id from a counter; later a
weak reference to it is pushed to `ISOL_TABLE`, and its destructor removes an entry of the table.

* `step`: isolations are created and dropped;
* `faithful_iff`, `ids_faithful_iff`: in which runs an id keeps its meaning.
-/

namespace AlloyAgent.IsolationTable

open List Transition

inductive Stage where
  | building
  /-- `new` has pushed it -/
  | alive
  /-- the last reference to it is gone, and its destructor is about to run -/
  | dropping
  | gone
  deriving DecidableEq

structure State where
  stages : List Stage
  table : List ℕ
  /-- the lock of the table, after a panic -/
  poisoned : Bool
  deriving DecidableEq

def init : State := ⟨[], [], false⟩

inductive Event where
  | genNewId
  /-- the end of `Isolation::new` -/
  | push (k : ℕ)
  /-- the last `Arc` is dropped -/
  | release (k : ℕ)
  /-- `Drop for Isolation` -/
  | remove (k : ℕ)
  deriving DecidableEq

def State.At (s : State) (stage : Stage) (k : ℕ) : Prop := s.stages[k]? = some stage

instance decidableAt (s : State) (stage : Stage) (k : ℕ) : Decidable (s.At stage k) :=
  inferInstanceAs (Decidable (_ = _))

def step (s : State) : Event → Option State
  | .genNewId => some { s with stages := s.stages ++ [.building] }
  | .push k =>
    if s.At .building k ∧ s.poisoned = false then
      some { s with stages := s.stages.set k .alive, table := s.table ++ [k] }
    else none
  | .release k =>
    if s.At .alive k then some { s with stages := s.stages.set k .dropping } else none
  | .remove k =>
    if s.At .dropping k ∧ s.poisoned = false then
      -- `remove(id - 1)`
      if k < s.table.length then
        some { s with stages := s.stages.set k .gone, table := s.table.eraseIdx k }
      else some { s with stages := s.stages.set k .gone, poisoned := true }
    else none

inductive Failure where
  | panic
  | error (message : String)
  deriving DecidableEq

/-- `get_isol`: the id of the isolation that is returned. -/
def getIsol (s : State) (handle : ℕ) : Except Failure ℕ :=
  if s.poisoned then .error .panic
  else
    match s.table[handle - 1]? with
    | none => .error (.error s!"isol don't exsit. handle={handle}")
    | some k =>
      if s.At .alive k then .ok (k + 1)
      else .error (.error s!"upgrade failed. isolation already stopped? handle={handle}")

/-- An issued id means its isolation while that is alive; no destructor has panicked. -/
structure Faithful (s : State) : Prop where
  unpoisoned : s.poisoned = false
  alive : ∀ k, s.At .alive k → getIsol s (k + 1) = .ok (k + 1)
  dead : ∀ k < s.stages.length, ¬ s.At .alive k → ∃ message,
    getIsol s (k + 1) = .error (.error message)

/-- `new` pushes at the position of its id, and a drop moves no isolation that is alive. -/
def InOrder (s : State) : Event → Prop
  | .push k => k = s.table.length
  | .remove k => k < s.table.length ∧ ∀ j, k < j → ¬ s.At .alive j
  | _ => True

section

variable {s s' : State} {e : Event}

theorem step_cases (h : step s e = some s') :
    (e = .genNewId ∧ s' = { s with stages := s.stages ++ [.building] }) ∨
    (∃ k, e = .push k ∧ s.At .building k ∧ s.poisoned = false ∧
      s' = { s with stages := s.stages.set k .alive, table := s.table ++ [k] }) ∨
    (∃ k, e = .release k ∧ s.At .alive k ∧
      s' = { s with stages := s.stages.set k .dropping }) ∨
    (∃ k, e = .remove k ∧ s.At .dropping k ∧ s.poisoned = false ∧
      ((k < s.table.length ∧
          s' = { s with stages := s.stages.set k .gone, table := s.table.eraseIdx k }) ∨
        (s.table.length ≤ k ∧
          s' = { s with stages := s.stages.set k .gone, poisoned := true }))) := by
  cases e with
  | genNewId => exact .inl ⟨rfl, (Option.some.inj h).symm⟩
  | push k =>
    rw [step] at h
    split_ifs at h with hk
    exact .inr (.inl ⟨k, rfl, hk.1, hk.2, (Option.some.inj h).symm⟩)
  | release k =>
    rw [step] at h
    split_ifs at h with hk
    exact .inr (.inr (.inl ⟨k, rfl, hk, (Option.some.inj h).symm⟩))
  | remove k =>
    rw [step] at h
    split_ifs at h with hk hlt
    · exact .inr (.inr (.inr ⟨k, rfl, hk.1, hk.2, .inl ⟨hlt, (Option.some.inj h).symm⟩⟩))
    · exact .inr (.inr (.inr ⟨k, rfl, hk.1, hk.2,
        .inr ⟨Nat.le_of_not_lt hlt, (Option.some.inj h).symm⟩⟩))

/-- The entries of the table are distinct, and they are isolations that have been pushed. -/
structure Inv (s : State) : Prop where
  nodup : s.table.Nodup
  pushed : ∀ k ∈ s.table, k < s.stages.length ∧ ¬ s.At .building k

theorem inv_init : Inv init := ⟨nodup_nil, nofun⟩

variable {k : ℕ}

theorem pushed_set {stages : List Stage} {table : List ℕ} {new : Stage} (hold : k < stages.length)
    (hnew : new ≠ .building)
    (h : ∀ j ∈ table, j ≠ k → j < stages.length ∧ ¬ stages[j]? = some .building) :
    ∀ j ∈ table, j < (stages.set k new).length ∧ ¬ (stages.set k new)[j]? = some .building := by
  intro j hj
  obtain ⟨old, hk⟩ : ∃ old, stages[k]? = some old := ⟨_, getElem?_eq_getElem hold⟩
  rw [length_set, getElem?_set_eq_some hk]
  by_cases hjk : j = k
  · subst hjk
    exact ⟨hold, by simp [Ne.symm hnew]⟩
  · obtain ⟨hlt, hnot⟩ := h j hj hjk
    exact ⟨hlt, by simp [hjk, hnot]⟩

theorem At.unique (h : s.At stage k) (h' : s.At stage' k) : stage = stage' :=
  Option.some.inj (h.symm.trans h')

theorem lt_of_at {stage : Stage} (h : s.At stage k) : k < s.stages.length :=
  (List.getElem?_eq_some_iff.mp h).1

theorem inv_step (s : State) (e : Event) (s' : State) (hinv : Inv s) (hstep : step s e = some s') :
    Inv s' := by
  rcases step_cases hstep with ⟨-, rfl⟩ | ⟨k, -, hk, -, rfl⟩ | ⟨k, -, hk, rfl⟩ |
    ⟨k, -, hk, -, ⟨-, rfl⟩ | ⟨-, rfl⟩⟩
  · refine ⟨hinv.nodup, fun j hj => ?_⟩
    obtain ⟨hlt, hnot⟩ := hinv.pushed j hj
    rw [State.At, length_append, getElem?_append_left hlt]
    exact ⟨by omega, hnot⟩
  · have hfresh : k ∉ s.table := fun hmem => (hinv.pushed k hmem).2 hk
    refine ⟨?_, ?_⟩
    · rw [nodup_append]
      exact ⟨hinv.nodup, nodup_singleton k, by
        rintro a ha b hb rfl
        rw [mem_singleton] at hb
        exact hfresh (hb ▸ ha)⟩
    · refine pushed_set (lt_of_at hk) nofun fun j hj hjk => ?_
      rw [mem_append, mem_singleton] at hj
      exact hinv.pushed j (hj.resolve_right hjk)
  · exact ⟨hinv.nodup, pushed_set (lt_of_at hk) nofun fun j hj _ => hinv.pushed j hj⟩
  · refine ⟨hinv.nodup.eraseIdx k, pushed_set (lt_of_at hk) nofun fun j hj _ => ?_⟩
    exact hinv.pushed j ((eraseIdx_sublist s.table k).subset hj)
  · exact ⟨hinv.nodup, pushed_set (lt_of_at hk) nofun fun j hj _ => hinv.pushed j hj⟩

/-! ## Lookup by position -/

theorem getIsol_of_alive (hs : s.poisoned = false) (hi : s.table[i]? = some k)
    (hk : s.At .alive k) : getIsol s (i + 1) = .ok (k + 1) := by
  rw [getIsol, if_neg (by simp [hs]), Nat.add_sub_cancel, hi]
  exact if_pos hk

theorem getIsol_of_not_alive (hs : s.poisoned = false)
    (hi : ∀ k, s.table[i]? = some k → ¬ s.At .alive k) :
    ∃ message, getIsol s (i + 1) = .error (.error message) := by
  rw [getIsol, if_neg (by simp [hs]), Nat.add_sub_cancel]
  cases hk : s.table[i]? with
  | none => exact ⟨_, rfl⟩
  | some k =>
    dsimp only
    rw [if_neg (hi k hk)]
    exact ⟨_, rfl⟩

/-- **In terms of the table**: every isolation that is alive is at its own position. -/
theorem faithful_iff (hinv : Inv s) :
    Faithful s ↔ s.poisoned = false ∧ ∀ k, s.At .alive k → s.table[k]? = some k := by
  refine ⟨fun h => ⟨h.unpoisoned, fun k hk => ?_⟩, fun ⟨hs, halive⟩ => ⟨hs, fun k hk => ?_, ?_⟩⟩
  · by_contra hne
    have hok := h.alive k hk
    by_cases hother : ∀ j, s.table[k]? = some j → ¬ s.At .alive j
    · obtain ⟨message, herror⟩ := getIsol_of_not_alive h.unpoisoned hother
      rw [hok] at herror
      cases herror
    · push Not at hother
      obtain ⟨j, hj, hjalive⟩ := hother
      rw [getIsol_of_alive h.unpoisoned hj hjalive] at hok
      obtain rfl : j = k := by simpa using hok
      exact hne hj
  · exact getIsol_of_alive hs (halive k hk) hk
  · intro k _ hk
    refine getIsol_of_not_alive hs fun j hj hjalive => hk ?_
    -- an entry that is alive is at its own position as well
    have hown := halive j hjalive
    have hpos := (List.getElem?_inj (List.getElem?_eq_some_iff.mp hj).1 hinv.nodup).mp
      (hj.trans hown.symm)
    rwa [hpos]

theorem faithful_step_iff (s : State) (e : Event) (s' : State) (hinv : Inv s) (hs : Faithful s)
    (hstep : step s e = some s') : Faithful s' ↔ InOrder s e := by
  have hinv' := inv_step s e s' hinv hstep
  rw [faithful_iff hinv']
  obtain ⟨hun, halive⟩ := (faithful_iff hinv).mp hs
  rcases step_cases hstep with ⟨rfl, rfl⟩ | ⟨k, rfl, hk, -, rfl⟩ | ⟨k, rfl, hk, rfl⟩ |
    ⟨k, rfl, hk, -, ⟨hlt, rfl⟩ | ⟨hle, rfl⟩⟩
  · refine iff_of_true ⟨hun, fun k hk => halive k ?_⟩ trivial
    rcases getElem?_concat_eq_some.mp hk with hk | ⟨-, hk⟩
    · exact hk
    · cases hk
  · -- it is pushed to the end, and this has to be its own position
    have hfresh : k ∉ s.table := fun hmem => (hinv.pushed k hmem).2 hk
    refine ⟨fun h => ?_, fun hend => ⟨hun, fun j hj => ?_⟩⟩
    · have hself := h.2 k ((getElem?_set_eq_some hk _ _ _).mpr (.inl ⟨rfl, rfl⟩))
      rcases getElem?_concat_eq_some.mp hself with hmem | ⟨hend, -⟩
      · exact absurd (mem_of_getElem? hmem) hfresh
      · exact hend
    · rcases (getElem?_set_eq_some hk _ _ _).mp hj with ⟨rfl, -⟩ | ⟨-, hj⟩
      · exact getElem?_concat_eq_some.mpr (.inr ⟨hend, rfl⟩)
      · exact getElem?_concat_eq_some.mpr (.inl (halive j hj))
  · refine iff_of_true ⟨hun, fun j hj => ?_⟩ trivial
    rcases (getElem?_set_eq_some hk _ _ _).mp hj with ⟨-, hj⟩ | ⟨-, hj⟩
    · cases hj
    · exact halive j hj
  · -- what stood behind the entry has moved
    have hsame : ∀ j, { s with stages := s.stages.set k .gone, table := s.table.eraseIdx k }.At
        .alive j ↔ s.At .alive j := by
      intro j
      refine (getElem?_set_eq_some hk _ _ _).trans ⟨?_, fun hj => .inr ⟨?_, hj⟩⟩
      · rintro (⟨-, hj⟩ | ⟨-, hj⟩)
        · cases hj
        · exact hj
      · rintro rfl
        cases At.unique hk hj
    refine ⟨fun h => ⟨hlt, fun j hkj hj => ?_⟩, fun h => ⟨hun, fun j hj => ?_⟩⟩
    · have hmoved := h.2 j ((hsame j).mpr hj)
      rw [getElem?_eraseIdx_of_ge hkj.le] at hmoved
      have hown := halive j hj
      have hpos := (List.getElem?_inj (List.getElem?_eq_some_iff.mp hown).1 hinv.nodup).mp
        (hown.trans hmoved.symm)
      omega
    · rw [hsame] at hj
      have hjk : j < k := by
        rcases lt_trichotomy j k with hjk | rfl | hkj
        · exact hjk
        · cases At.unique hk hj
        · exact absurd hj (h.2 j hkj)
      rw [getElem?_eraseIdx_of_lt hjk]
      exact halive j hj
  · refine iff_of_false (fun h => ?_) fun h => ?_
    · cases h.1
    · exact absurd h.1 (Nat.not_lt.mpr hle)

/-- **When an id always means its isolation**, for every order of creations and drops. -/
theorem ids_faithful_iff {events : List Event} {s : State} (hrun : run step init events = some s) :
    Throughout step Faithful init events ↔ Guarded step InOrder init events := by
  have hinit : Faithful init := (faithful_iff inv_init).mpr ⟨rfl, nofun⟩
  exact throughout_iff_guarded_of_inv inv_step faithful_step_iff events inv_init hinit hrun

end

/-- Two isolations, and the younger one is dropped first. -/
theorem younger_dropped_first :
    Throughout step Faithful init
      [.genNewId, .push 0, .genNewId, .push 1, .release 1, .remove 1, .release 0, .remove 0] := by
  apply (ids_faithful_iff rfl).mpr
  refine .cons trivial rfl (.cons rfl rfl (.cons trivial rfl (.cons rfl rfl (.cons trivial rfl
    (.cons ⟨by decide, fun j hj => ?_⟩ rfl (.cons trivial rfl (.cons ⟨by decide, fun j hj => ?_⟩ rfl
      trivial)))))))
  · match j, hj with
    | _ + 2, _ => exact nofun
  · match j, hj with
    | 1, _ => decide
    | _ + 2, _ => exact nofun

/-- The older isolation is dropped first: its id then means the younger one. -/
theorem older_dropped_first :
    (run step init [.genNewId, .push 0, .genNewId, .push 1, .release 0, .remove 0]).map
        (fun s => (getIsol s 1, getIsol s 2)) =
      some (.ok 2, .error (.error "isol don't exsit. handle=2")) ∧
    (run step init [.genNewId, .push 0, .genNewId, .push 1, .release 0, .remove 0, .release 1,
        .remove 1]).map (fun s => getIsol s 1) =
      some (.error .panic) := by
  exact ⟨rfl, rfl⟩

end AlloyAgent.IsolationTable
