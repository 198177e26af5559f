import AlloyAgent.HashTable

/-!
# An index by owner

Items are stored by key, and each has an owner. Beside them stands an index from owners to the keys
of their items, which is written separately.

* `Indexed`: the index lists the keys of each owner, and every update keeps that.
-/

namespace AlloyAgent

universe u v w

variable {κ : Type u} {ν : Type v} {ο : Type w} [DecidableEq κ] [DecidableEq ο]

def Table.keysOf (index : Table ο (List κ)) (o : ο) : List κ := (index.lookup o).getD []

/-- The index has under each owner the keys of the items of this owner, each once. -/
structure Indexed (owner : ν → ο) (items : Table κ ν) (index : Table ο (List κ)) : Prop where
  mem_iff : ∀ o k, k ∈ index.keysOf o ↔ ∃ v, items.lookup k = some v ∧ owner v = o
  nodup : ∀ o, (index.keysOf o).Nodup

namespace Indexed

variable {owner : ν → ο} {items : Table κ ν} {index : Table ο (List κ)}

theorem empty : Indexed owner (∅ : Table κ ν) ∅ where
  mem_iff o k := by simp [Table.keysOf]
  nodup o := by simp [Table.keysOf]

omit [DecidableEq κ] in
theorem keysOf_insert (index : Table ο (List κ)) (o o' : ο) (ks : List κ) :
    Table.keysOf (index.insert o ks) o' = if o' = o then ks else index.keysOf o' := by
  rw [Table.keysOf, Table.lookup_insert_eq, apply_ite (Option.getD · [])]
  rfl

omit [DecidableEq κ] in
theorem keysOf_erase (index : Table ο (List κ)) (o o' : ο) :
    Table.keysOf (index.erase o) o' = if o' = o then [] else index.keysOf o' := by
  rw [Table.keysOf, Table.lookup_erase_eq, apply_ite (Option.getD · [])]
  rfl

variable {k : κ}

section

variable (h : Indexed owner items index)
include h

theorem insert (hnew : items.lookup k = none) (v : ν) :
    Indexed owner (items.insert k v) (index.push (owner v) k) := by
  have hnot : ∀ o, k ∉ index.keysOf o := by
    intro o hk
    obtain ⟨w, hw, -⟩ := (h.mem_iff o k).mp hk
    rw [hnew] at hw
    cases hw
  have hkeys : ∀ o, (index.push (owner v) k).keysOf o =
      if o = owner v then index.keysOf (owner v) ++ [k] else index.keysOf o :=
    fun o => keysOf_insert index (owner v) o _
  refine ⟨fun o k' => ?_, fun o => ?_⟩
  · rw [hkeys]
    by_cases hk : k' = k
    · subst hk
      rw [AList.lookup_insert]
      split_ifs with ho
      · simp [ho]
      · simpa [hnot o] using Ne.symm ho
    · rw [AList.lookup_insert_ne hk, ← h.mem_iff o k']
      split_ifs with ho
      · simp [ho, hk]
      · exact Iff.rfl
  · rw [hkeys]
    split_ifs with ho
    · refine List.nodup_append.mpr ⟨h.nodup _, List.nodup_singleton k, ?_⟩
      rintro a ha b hb rfl
      exact hnot _ (List.mem_singleton.mp hb ▸ ha)
    · exact h.nodup o

theorem erase (hk : items.lookup k = some v) :
    Indexed owner (items.erase k)
      (index.insert (owner v) ((index.keysOf (owner v)).filter fun k' => k' ≠ k)) := by
  refine ⟨fun o k' => ?_, fun o => ?_⟩
  · rw [keysOf_insert]
    by_cases hkk : k' = k
    · subst hkk
      rw [AList.lookup_erase]
      split_ifs with ho
      · simp
      · refine iff_of_false (fun hmem => ?_) (by simp)
        obtain ⟨w, hw, rfl⟩ := (h.mem_iff o k').mp hmem
        exact ho (congrArg owner (Option.some.inj (hw.symm.trans hk)))
    · rw [AList.lookup_erase_ne hkk, ← h.mem_iff o k']
      split_ifs with ho
      · simp [ho, hkk]
      · exact Iff.rfl
  · rw [keysOf_insert]
    split_ifs with ho
    · exact (h.nodup _).filter _
    · exact h.nodup o

theorem eraseOwner (o : ο) :
    Indexed owner ((index.keysOf o).foldl (fun t k => t.erase k) items) (index.erase o) := by
  refine ⟨fun o' k => ?_, fun o' => ?_⟩
  · rw [keysOf_erase, Table.lookup_foldl_erase]
    split_ifs with ho hk hk
    · simp
    · -- what is not in the keys of the owner is not an item of it
      subst ho
      exact iff_of_false List.not_mem_nil (mt (h.mem_iff _ k).mpr hk)
    · refine iff_of_false (fun hmem => ho ?_) (by simp)
      obtain ⟨v, hv, rfl⟩ := (h.mem_iff o' k).mp hmem
      obtain ⟨w, hw, rfl⟩ := (h.mem_iff o k).mp hk
      exact congrArg owner (Option.some.inj (hv.symm.trans hw))
    · exact h.mem_iff o' k
  · rw [keysOf_erase]
    split_ifs
    · exact List.nodup_nil
    · exact h.nodup o'

theorem modify (hk : items.lookup k = some v) (howner : owner v' = owner v) :
    Indexed owner (items.insert k v') index := by
  refine ⟨fun o k' => ?_, h.nodup⟩
  rw [h.mem_iff o k']
  by_cases hkk : k' = k
  · subst hkk
    rw [AList.lookup_insert, hk]
    simp [howner]
  · rw [AList.lookup_insert_ne hkk]

end

end Indexed

end AlloyAgent
