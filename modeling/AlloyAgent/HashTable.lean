import Mathlib.Algebra.Ring.Nat
import Mathlib.Data.List.AList
import Mathlib.Data.List.Perm.Basic
import Mathlib.Data.List.Sort

/-!
# Hash tables

A hash map is an association list with pairwise-distinct keys (`AList`), so a value with two entries
for one key cannot be built.

* `lookup_insert_eq`, `lookup_erase_eq`: the updates;
* `IterOrder`: some order of the entries, which the code must not depend on;
* `total`, `groupPairs`: sums of the values, and grouping by key.
-/

namespace AlloyAgent

open List

universe u v

/-- A map: distinct keys, each with its value. -/
abbrev Table (κ : Type u) (ν : Type v) : Type (max u v) := AList fun _ : κ => ν

/-- An iteration order of a hash container: some rearrangement of its entries. -/
structure IterOrder (α : Type u) where
  arrange : List α → List α
  /-- the iterator yields every entry, each as often as it is stored -/
  perm : ∀ l, (arrange l).Perm l

namespace IterOrder

def stored (α : Type u) : IterOrder α := ⟨id, fun _ => List.Perm.refl _⟩

@[simp] theorem mem_arrange {α : Type u} (ord : IterOrder α) {l : List α} {a : α} :
    a ∈ ord.arrange l ↔ a ∈ l :=
  (ord.perm l).mem_iff

end IterOrder

namespace Table

variable {κ : Type u} {ν : Type v} [DecidableEq κ]

def pairs (t : Table κ ν) : List (κ × ν) := t.entries.map fun e => (e.1, e.2)

variable {t : Table κ ν} {k : κ} {w : ν}

theorem mem_pairs : (k, w) ∈ t.pairs ↔ t.lookup k = some w := by
  have hmem : (k, w) ∈ t.pairs ↔ (⟨k, w⟩ : Sigma fun _ : κ => ν) ∈ t.entries := by
    simp only [pairs, mem_map]
    refine ⟨?_, ?_⟩
    · rintro ⟨⟨k', w'⟩, he, heq⟩
      cases heq
      exact he
    · intro he
      exact ⟨_, he, rfl⟩
  rw [hmem]
  exact (mem_dlookup_iff t.nodupKeys).symm

variable (t)

omit [DecidableEq κ] in
theorem map_fst_pairs : t.pairs.map Prod.fst = t.keys := by
  simp [pairs, AList.keys, List.keys, Function.comp_def]

omit [DecidableEq κ] in
theorem nodup_keys_pairs : (t.pairs.map Prod.fst).Nodup := by
  rw [map_fst_pairs]
  exact t.keys_nodup

theorem lookup_insert_eq (k : κ) (w : ν) (k' : κ) :
    (t.insert k w).lookup k' = if k' = k then some w else t.lookup k' := by
  split_ifs with hk
  · rw [hk, AList.lookup_insert]
  · exact AList.lookup_insert_ne hk

theorem lookup_erase_eq (k k' : κ) :
    (t.erase k).lookup k' = if k' = k then none else t.lookup k' := by
  split_ifs with hk
  · rw [hk, AList.lookup_erase]
  · exact AList.lookup_erase_ne hk

variable {t}

theorem lookup_of_lookup_erase (h : (t.erase k).lookup k' = some w) : t.lookup k' = some w := by
  rw [lookup_erase_eq] at h
  split_ifs at h
  exact h

/-- What holds of a new entry and of all old ones holds of every entry. -/
theorem forall_lookup_insert {P : κ → ν → Prop} (hnew : P k w)
    (h : ∀ k' v, t.lookup k' = some v → P k' v) (k' : κ) (v : ν)
    (hv : (t.insert k w).lookup k' = some v) : P k' v := by
  rw [lookup_insert_eq] at hv
  split_ifs at hv with hk
  · cases hv
    exact hk ▸ hnew
  · exact h k' v hv

theorem lookup_insert_eq_update (t : Table κ ν) (k : κ) (w : ν) :
    (fun k' => (t.insert k w).lookup k') = Function.update (fun k' => t.lookup k') k (some w) := by
  funext k'
  rw [lookup_insert_eq, Function.update_apply]

theorem lookup_erase_eq_update (t : Table κ ν) (k : κ) :
    (fun k' => (t.erase k).lookup k') = Function.update (fun k' => t.lookup k') k none := by
  funext k'
  rw [lookup_erase_eq, Function.update_apply]

/-- `entry(k).or_insert(v)`. -/
def orInsert (t : Table κ ν) (k : κ) (w : ν) : Table κ ν :=
  match t.lookup k with
  | some _ => t
  | none => t.insert k w

theorem lookup_orInsert (t : Table κ ν) (k : κ) (w : ν) (k' : κ) :
    (t.orInsert k w).lookup k' = if k' = k then some ((t.lookup k).getD w) else t.lookup k' := by
  rw [orInsert]
  split
  · rename_i v hv
    split_ifs with hk
    · rw [hk, hv, Option.getD_some]
    · rfl
  · rename_i hnone
    rw [lookup_insert_eq, hnone, Option.getD_none]

/-! ## A sum over the values -/

def total (f : ν → ℕ) (t : Table κ ν) : ℕ := (t.entries.map fun e => f e.2).sum

variable (f : ν → ℕ)

omit [DecidableEq κ] in
@[simp] theorem total_empty : total f (∅ : Table κ ν) = 0 := rfl

theorem total_erase {f : ν → ℕ} (h : t.lookup k = some w) :
    total f t = f w + total f (t.erase k) := by
  have hkey : k ∈ t.entries.keys := AList.mem_keys.mp (AList.lookup_isSome.mp (by simp [h]))
  obtain ⟨w', l₁, l₂, -, hl, hkerase⟩ := exists_of_kerase hkey
  have hw' : t.lookup k = some w' := by
    refine (mem_dlookup_iff t.nodupKeys).mpr ?_
    rw [hl]
    exact mem_append_right _ mem_cons_self
  obtain rfl : w = w' := Option.some.inj (h.symm.trans hw')
  have herase : (t.erase k).entries = l₁ ++ l₂ := hkerase
  simp only [total, herase, hl, map_append, map_cons, sum_append, sum_cons]
  omega

theorem total_insert (t : Table κ ν) (k : κ) (w : ν) :
    total f (t.insert k w) = f w + total f (t.erase k) := by
  rfl

theorem erase_eq_self (h : t.lookup k = none) : t.erase k = t :=
  AList.ext (kerase_of_notMem_keys (AList.lookup_eq_none.mp h))

theorem total_eq_erase (t : Table κ ν) (k : κ) :
    total f t = (t.lookup k).elim 0 f + total f (t.erase k) := by
  cases h : t.lookup k with
  | none => rw [erase_eq_self h, Option.elim_none, Nat.zero_add]
  | some w => exact total_erase h

def size (t : Table κ ν) : ℕ := total (fun _ => 1) t

theorem size_erase_le (t : Table κ ν) (k : κ) : size (t.erase k) ≤ size t := by
  have h := total_eq_erase (fun _ => 1) t k
  simp only [size]
  omega

theorem size_insert (t : Table κ ν) (k : κ) (w : ν) :
    size (t.insert k w) = if (t.lookup k).isSome then size t else size t + 1 := by
  have hinsert := total_insert (fun _ => 1) t k w
  have herase := total_eq_erase (fun _ => 1) t k
  simp only [size]
  split_ifs with h
  · obtain ⟨v, hv⟩ := Option.isSome_iff_exists.mp h
    rw [hv, Option.elim_some] at herase
    omega
  · rw [Option.not_isSome_iff_eq_none.mp h, Option.elim_none] at herase
    omega

def retain (p : κ → ν → Bool) (t : Table κ ν) : Table κ ν :=
  ⟨t.entries.filter fun e => p e.1 e.2, t.nodupKeys.sublist List.filter_sublist⟩

theorem lookup_retain (p : κ → ν → Bool) (t : Table κ ν) (k : κ) :
    (t.retain p).lookup k = (t.lookup k).filter (p k) := by
  refine Option.ext fun w => ?_
  have hmem : w ∈ (t.retain p).lookup k ↔ w ∈ t.lookup k ∧ p k w = true := by
    refine (mem_dlookup_iff (t.retain p).nodupKeys).trans ?_
    refine mem_filter.trans (and_congr_left fun _ => ?_)
    exact (mem_dlookup_iff t.nodupKeys).symm
  simpa [Option.filter_eq_some_iff] using hmem

/-! ## A loop of removals -/

theorem lookup_foldl_erase (ks : List κ) (t : Table κ ν) (k : κ) :
    (ks.foldl (fun t k => t.erase k) t).lookup k =
      if k ∈ ks then none else t.lookup k := by
  induction ks generalizing t with
  | nil => simp
  | cons k' ks ih =>
    rw [foldl_cons, ih]
    by_cases hk : k = k'
    · subst hk
      simp
    · rw [AList.lookup_erase_ne hk]
      simp [hk]

theorem size_foldl_erase (ks : List κ) :
    ∀ {t : Table κ ν}, ks.Nodup → (∀ k ∈ ks, (t.lookup k).isSome) →
      size (ks.foldl (fun t k => t.erase k) t) + ks.length = size t := by
  induction ks with
  | nil => intro t _ _; rfl
  | cons k ks ih =>
    intro t hnodup hstored
    obtain ⟨hk, hnodup⟩ := nodup_cons.mp hnodup
    obtain ⟨hsome, hstored⟩ := forall_mem_cons.mp hstored
    obtain ⟨w, hw⟩ := Option.isSome_iff_exists.mp hsome
    have hrest : ∀ k' ∈ ks, ((t.erase k).lookup k').isSome := by
      intro k' hk'
      rw [AList.lookup_erase_ne]
      · exact hstored k' hk'
      · rintro rfl
        exact hk hk'
    have hsize := total_erase (f := fun _ => 1) hw
    have hloop := ih hnodup hrest
    rw [foldl_cons, length_cons]
    simp only [size] at hsize hloop ⊢
    omega

/-! ## Changing all values -/

def mapValues (f : ν → ν) (t : Table κ ν) : Table κ ν where
  entries := t.entries.map fun e => ⟨e.1, f e.2⟩
  nodupKeys := by
    rw [List.NodupKeys, List.keys, List.map_map]
    exact t.nodupKeys

theorem lookup_mapValues (f : ν → ν) (t : Table κ ν) (k : κ) :
    (t.mapValues f).lookup k = (t.lookup k).map f := by
  refine Option.ext fun w => ?_
  have hmem : w ∈ (t.mapValues f).lookup k ↔ ∃ v ∈ t.lookup k, f v = w := by
    refine (mem_dlookup_iff (t.mapValues f).nodupKeys).trans ?_
    refine mem_map.trans ⟨?_, ?_⟩
    · rintro ⟨⟨k', v⟩, hv, heq⟩
      cases heq
      exact ⟨v, (mem_dlookup_iff t.nodupKeys).mpr hv, rfl⟩
    · rintro ⟨v, hv, rfl⟩
      exact ⟨⟨k, v⟩, (mem_dlookup_iff t.nodupKeys).mp hv, rfl⟩
  simpa [Option.map_eq_some_iff] using hmem

omit [DecidableEq κ] in
theorem pairs_mapValues (f : ν → ν) (t : Table κ ν) :
    (t.mapValues f).pairs = t.pairs.map fun p => (p.1, f p.2) := by
  simp [pairs, mapValues, Function.comp_def]

theorem pairs_perm {t' : Table κ ν} (h : ∀ k, t.lookup k = t'.lookup k) : t.pairs.Perm t'.pairs :=
  (lookup_ext t.nodupKeys t'.nodupKeys fun k w => by
    change t.lookup k = some w ↔ t'.lookup k = some w
    rw [h k]).map _

/-! ## A loop of inserts -/

def ofPairs (l : List (κ × ν)) : Table κ ν := l.foldl (fun t p => t.insert p.1 p.2) ∅

/-- After a loop of inserts a lookup finds the last pair with the key, or what was there. -/
theorem lookup_foldl_insert (l : List (κ × ν)) :
    ∀ (t : Table κ ν) (k : κ),
      (l.foldl (fun t p => t.insert p.1 p.2) t).lookup k =
        ((l.filter fun p => p.1 = k).getLast?.map Prod.snd).or (t.lookup k) := by
  induction l with
  | nil => intro t k; simp
  | cons p l ih =>
    intro t k
    rw [foldl_cons, ih, filter_cons]
    by_cases hk : p.1 = k
    · subst hk
      rw [if_pos (by simp), AList.lookup_insert]
      generalize l.filter (fun q => decide (q.1 = p.1)) = same
      rcases same with _ | ⟨q, same'⟩
      · rfl
      · rw [getLast?_cons_cons, getLast?_cons]
        rfl
    · rw [if_neg (by simpa using hk), AList.lookup_insert_ne (Ne.symm hk)]

theorem lookup_ofPairs_eq (l : List (κ × ν)) (k : κ) :
    (ofPairs l).lookup k = (l.filter fun p => p.1 = k).getLast?.map Prod.snd := by
  rw [ofPairs, lookup_foldl_insert, AList.lookup_empty, Option.or_none]

variable {l : List (κ × ν)}

theorem mem_of_lookup_ofPairs (h : (ofPairs l).lookup k = some w) : (k, w) ∈ l := by
  rw [lookup_ofPairs_eq, Option.map_eq_some_iff] at h
  obtain ⟨x, hx, rfl⟩ := h
  obtain ⟨hxl, hxk⟩ := mem_filter.mp (mem_of_getLast? hx)
  obtain rfl : x.1 = k := by simpa using hxk
  exact hxl

theorem exists_lookup_ofPairs (h : (k, w) ∈ l) : ∃ v, (ofPairs l).lookup k = some v := by
  rw [← Option.isSome_iff_exists, ← Option.ne_none_iff_isSome, ne_eq, lookup_ofPairs_eq,
    Option.map_eq_none_iff, getLast?_eq_none_iff, filter_eq_nil_iff]
  exact fun hl => absurd (by simp) (hl (k, w) h)

/-- If no key is bound to two values, the map is exactly the relation of the pairs. -/
theorem lookup_ofPairs (hfun : ∀ k v w, (k, v) ∈ l → (k, w) ∈ l → v = w) :
    (ofPairs l).lookup k = some w ↔ (k, w) ∈ l := by
  refine ⟨mem_of_lookup_ofPairs, fun hkw => ?_⟩
  obtain ⟨v, hv⟩ := exists_lookup_ofPairs hkw
  rw [hv, hfun k v w (mem_of_lookup_ofPairs hv) hkw]

theorem lookup_ofPairs_arrange (ord : IterOrder (κ × ν)) (t : Table κ ν) (k : κ) :
    (ofPairs (ord.arrange t.pairs)).lookup k = t.lookup k := by
  have hfun : ∀ k v w, (k, v) ∈ ord.arrange t.pairs → (k, w) ∈ ord.arrange t.pairs → v = w := by
    intro k v w hv hw
    rw [IterOrder.mem_arrange, mem_pairs] at hv hw
    exact Option.some.inj (hv.symm.trans hw)
  ext w
  rw [lookup_ofPairs hfun, IterOrder.mem_arrange, mem_pairs]

/-! ## A loop of pushes -/

/-- `entry(k).or_default().push(v)`. -/
def push (t : Table κ (List ν)) (k : κ) (v : ν) : Table κ (List ν) :=
  t.insert k ((t.lookup k).getD [] ++ [v])

def groupPairs (l : List (κ × ν)) : Table κ (List ν) := l.foldl (fun t p => t.push p.1 p.2) ∅

def valuesAt (l : List (κ × ν)) (k : κ) : List ν := (l.filter fun p => p.1 = k).map Prod.snd

theorem mem_valuesAt : v ∈ valuesAt l k ↔ (k, v) ∈ l := by
  simp only [valuesAt, mem_map, mem_filter, decide_eq_true_eq]
  refine ⟨?_, ?_⟩
  · rintro ⟨⟨k', v'⟩, ⟨hp, rfl⟩, rfl⟩
    exact hp
  · intro hp
    exact ⟨(k, v), ⟨hp, rfl⟩, rfl⟩

theorem getD_lookup_foldl_push (l : List (κ × ν)) :
    ∀ (t : Table κ (List ν)) (k : κ),
      ((l.foldl (fun t p => t.push p.1 p.2) t).lookup k).getD [] =
        (t.lookup k).getD [] ++ valuesAt l k := by
  induction l with
  | nil => intro t k; simp [valuesAt]
  | cons p l ih =>
    intro t k
    rw [foldl_cons, ih, push]
    by_cases hk : p.1 = k
    · subst hk
      simp [valuesAt]
    · rw [AList.lookup_insert_ne (Ne.symm hk), valuesAt, valuesAt, filter_cons,
        if_neg (by simpa using hk)]

@[simp] theorem getD_lookup_groupPairs (l : List (κ × ν)) (k : κ) :
    ((groupPairs l).lookup k).getD [] = valuesAt l k := by
  rw [groupPairs, getD_lookup_foldl_push]
  simp

theorem lookup_groupPairs (h : (groupPairs l).lookup k = some vs) : vs = valuesAt l k := by
  rw [← getD_lookup_groupPairs, h, Option.getD_some]

theorem exists_lookup_groupPairs (h : (k, v) ∈ l) :
    ∃ vs, (groupPairs l).lookup k = some vs ∧ v ∈ vs := by
  have hv := mem_valuesAt.mpr h
  rw [← getD_lookup_groupPairs] at hv
  cases hk : (groupPairs l).lookup k with
  | none =>
    rw [hk] at hv
    cases hv
  | some vs =>
    rw [hk] at hv
    exact ⟨vs, rfl, hv⟩

theorem ne_nil_of_lookup_foldl_push (l : List (κ × ν)) :
    ∀ t : Table κ (List ν), (∀ k vs, t.lookup k = some vs → vs ≠ []) →
      ∀ k vs, (l.foldl (fun t p => t.push p.1 p.2) t).lookup k = some vs → vs ≠ [] := by
  induction l with
  | nil => intro t ht; exact ht
  | cons p l ih =>
    intro t ht
    exact ih (t.push p.1 p.2) (forall_lookup_insert (by simp) ht)

theorem ne_nil_of_lookup_groupPairs (h : (groupPairs l).lookup k = some vs) : vs ≠ [] :=
  ne_nil_of_lookup_foldl_push l ∅ (fun k vs hk => by simp at hk) k vs h

/-! ## Entries sorted by key -/

variable [LinearOrder κ]

/-- All entries, largest key first. -/
def sortedDesc (t : Table κ ν) : List (κ × ν) := t.pairs.insertionSort fun a b => b.1 ≤ a.1

theorem mem_sortedDesc : (k, w) ∈ t.sortedDesc ↔ t.lookup k = some w := by
  rw [sortedDesc, (perm_insertionSort _ _).mem_iff, mem_pairs]

omit [DecidableEq κ] in
theorem sortedDesc_strict (t : Table κ ν) : t.sortedDesc.Pairwise fun a b => b.1 < a.1 := by
  have hsorted : t.sortedDesc.Pairwise fun a b => b.1 ≤ a.1 :=
    pairwise_insertionSort (fun a b : κ × ν => b.1 ≤ a.1) t.pairs
  have hnodup : (t.sortedDesc.map Prod.fst).Nodup :=
    ((perm_insertionSort _ _).map _).nodup_iff.mpr t.nodup_keys_pairs
  have hne : t.sortedDesc.Pairwise fun a b => a.1 ≠ b.1 := pairwise_map.mp hnodup
  exact (hsorted.and hne).imp fun h => lt_of_le_of_ne h.1 (Ne.symm h.2)

end Table

end AlloyAgent
