import Mathlib.Data.List.Nodup

/-!
# Caches with least-recently-used eviction

A cache of bounded, non-zero capacity. The entries are kept in order of use, most recent first; the
structure carries that keys are distinct and that the capacity is not exceeded, so both hold of
every cache that a program can reach.

* `get`, `put`, `pop`, with what they do to `lookup` and to the length.
-/

namespace AlloyAgent

open List

universe u v

structure LruCache (κ : Type u) (ν : Type v) where
  /-- most recently used first -/
  entries : List (κ × ν)
  cap : ℕ
  /-- the capacity is a `NonZeroUsize` -/
  cap_pos : 0 < cap
  nodup : (entries.map Prod.fst).Nodup
  length_le : entries.length ≤ cap

namespace LruCache

variable {κ : Type u} {ν : Type v}

def new (cap : ℕ) (h : 0 < cap) : LruCache κ ν := ⟨[], cap, h, List.nodup_nil, Nat.zero_le _⟩

def len (c : LruCache κ ν) : ℕ := c.entries.length

variable [DecidableEq κ]

def lookup (c : LruCache κ ν) (k : κ) : Option ν :=
  (c.entries.find? fun e => e.1 = k).map Prod.snd

def others (c : LruCache κ ν) (k : κ) : List (κ × ν) := c.entries.filter fun e => e.1 ≠ k

variable {c : LruCache κ ν} {k : κ} {w : ν}

theorem lookup_eq_some : c.lookup k = some w ↔ (k, w) ∈ c.entries := by
  have hnodup := c.nodup
  rw [lookup]
  generalize c.entries = entries at hnodup
  induction entries with
  | nil => simp
  | cons e entries ih =>
    obtain ⟨k', w'⟩ := e
    obtain ⟨hnew, hrest⟩ := nodup_cons.mp hnodup
    by_cases hk : k' = k
    · subst hk
      have hmem : (k', w) ∉ entries := fun h => hnew (mem_map.mpr ⟨_, h, rfl⟩)
      simp [hmem, eq_comm]
    · rw [find?_cons_of_neg (by simpa using hk)]
      exact (ih hrest).trans (by simp [Ne.symm hk])

theorem mem_others : e ∈ c.others k ↔ e ∈ c.entries ∧ e.1 ≠ k := by
  simp [others]

theorem nodup_cons_others (c : LruCache κ ν) (k : κ) (w : ν) :
    (((k, w) :: c.others k).map Prod.fst).Nodup := by
  rw [map_cons, nodup_cons]
  refine ⟨?_, (filter_sublist.map _).nodup c.nodup⟩
  simp [others]

theorem length_others (h : c.lookup k = some w) : (c.others k).length + 1 = c.entries.length := by
  have hnodup := c.nodup
  have hmem := lookup_eq_some.mp h
  rw [others]
  generalize c.entries = entries at hnodup hmem
  induction entries with
  | nil => cases hmem
  | cons e entries ih =>
    obtain ⟨hnew, hrest⟩ := nodup_cons.mp hnodup
    by_cases hk : e.1 = k
    · -- the key does not occur a second time
      have hall : entries.filter (fun e => e.1 ≠ k) = entries := by
        rw [filter_eq_self]
        rintro e' he'
        have hne : e'.1 ≠ k := fun heq => hnew (hk ▸ heq ▸ mem_map_of_mem he')
        simpa using hne
      rw [filter_cons_of_neg (by simpa using hk), hall, length_cons]
    · have hmem' : (k, w) ∈ entries := by
        rcases mem_cons.mp hmem with rfl | hmem
        · exact absurd rfl hk
        · exact hmem
      rw [filter_cons_of_pos (by simpa using hk), length_cons, length_cons,
        ih hrest hmem']

theorem others_of_absent (h : c.lookup k = none) : c.others k = c.entries := by
  rw [others, filter_eq_self]
  rintro ⟨k', w⟩ hmem
  have hne : k' ≠ k := by
    rintro rfl
    rw [lookup_eq_some.mpr hmem] at h
    cases h
  simpa using hne

theorem length_others_lt (h : c.lookup k = some w) : (c.others k).length < c.entries.length :=
  length_filter_lt_length_iff_exists.mpr ⟨(k, w), lookup_eq_some.mp h, by simp⟩

/-- `get`: a hit makes the entry the most recent one. -/
def get (c : LruCache κ ν) (k : κ) : Option ν × LruCache κ ν :=
  match h : c.lookup k with
  | some w =>
    (some w, ⟨(k, w) :: c.others k, c.cap, c.cap_pos, c.nodup_cons_others k w,
      Nat.lt_of_lt_of_le (length_others_lt h) c.length_le⟩)
  | none => (none, c)

def put (c : LruCache κ ν) (k : κ) (w : ν) : LruCache κ ν :=
  ⟨((k, w) :: c.others k).take c.cap, c.cap, c.cap_pos,
    ((List.take_sublist _ _).map _).nodup (c.nodup_cons_others k w), List.length_take_le _ _⟩

def pop (c : LruCache κ ν) (k : κ) : Option ν × LruCache κ ν :=
  (c.lookup k, ⟨c.others k, c.cap, c.cap_pos, (List.filter_sublist.map _).nodup c.nodup,
    Nat.le_trans (List.length_filter_le _ _) c.length_le⟩)

@[simp] theorem lookup_new (cap : ℕ) (h : 0 < cap) (k : κ) :
    (new cap h : LruCache κ ν).lookup k = none := rfl

theorem get_fst (c : LruCache κ ν) (k : κ) : (c.get k).1 = c.lookup k := by
  rw [get]
  split <;> simp_all

theorem lookup_get (c : LruCache κ ν) (k k' : κ) : (c.get k).2.lookup k' = c.lookup k' := by
  rw [get]
  split
  · rename_i w hw
    refine Option.ext fun w' => ?_
    rw [lookup_eq_some, lookup_eq_some, mem_cons, mem_others]
    have hmem := lookup_eq_some.mp hw
    refine ⟨?_, ?_⟩
    · rintro (h | h)
      · exact h ▸ hmem
      · exact h.1
    · intro h
      by_cases hk : k' = k
      · subst hk
        have hw' := lookup_eq_some.mpr h
        exact Or.inl (by rw [Option.some.inj (hw.symm.trans hw')])
      · exact Or.inr ⟨h, hk⟩
  · rfl

/-- After a `put`, a stored key is the one put, or has the value it had. -/
theorem lookup_put (h : (c.put k w).lookup k' = some w') :
    (k' = k ∧ w' = w) ∨ (k' ≠ k ∧ c.lookup k' = some w') := by
  rw [lookup_eq_some] at h
  rcases mem_cons.mp (mem_of_mem_take h) with heq | hmem
  · exact Or.inl (Prod.mk.inj heq)
  · obtain ⟨hmem, hk⟩ := mem_others.mp hmem
    exact Or.inr ⟨hk, lookup_eq_some.mpr hmem⟩

theorem lookup_pop (h : (c.pop k).2.lookup k' = some w) : k' ≠ k ∧ c.lookup k' = some w := by
  rw [lookup_eq_some] at h
  obtain ⟨hmem, hk⟩ := mem_others.mp h
  exact ⟨hk, lookup_eq_some.mpr hmem⟩

/-! ## How many there are -/

@[simp] theorem cap_get (c : LruCache κ ν) (k : κ) : (c.get k).2.cap = c.cap := by
  rw [get]
  split <;> rfl

@[simp] theorem len_get (c : LruCache κ ν) (k : κ) : (c.get k).2.len = c.len := by
  rw [get]
  split
  · rename_i w hw
    exact length_others hw
  · rfl

theorem get_of_absent (h : c.lookup k = none) : c.get k = (none, c) := by
  rw [get]
  split
  · rename_i w hw
    rw [hw] at h
    cases h
  · rfl

theorem len_pop (c : LruCache κ ν) (k : κ) :
    (c.pop k).2.len + (if (c.lookup k).isSome then 1 else 0) = c.len := by
  cases h : c.lookup k with
  | none => exact congrArg List.length (others_of_absent h)
  | some w => exact length_others h

theorem len_put (h : c.lookup k = none) :
    (c.put k w).len + (if c.len = c.cap then 1 else 0) = c.len + 1 := by
  have hle : c.len ≤ c.cap := c.length_le
  have hput : (c.put k w).len = min c.cap (c.len + 1) := by
    simp only [len, put, others_of_absent h, length_take, length_cons]
  by_cases hfull : c.len = c.cap
  · rw [hput, if_pos hfull, Nat.min_eq_left (by omega), hfull]
  · rw [hput, if_neg hfull, Nat.min_eq_right (by omega)]

end LruCache

end AlloyAgent
