import AlloyAgent.BufferPool

/-!
# What `put` does

`put` frees its slot, and if the new data does not fit next to the rest, it evicts the oldest other
buffers, one after another, until it does.

* `put_spec`: what `put` can do;
* `put_failed_keeps_iff`: when a failed call changes nothing;
* `put_evicts_oldest_iff`: when it evicts the oldest, and no more than needed.
-/

namespace AlloyAgent.BufferPool

open List

def bytes (l : List (String × SharedBuffer)) : ℕ := (l.map fun e => e.2.len).sum

@[simp] theorem bytes_nil : bytes [] = 0 := rfl

theorem bytes_append (l l' : List (String × SharedBuffer)) :
    bytes (l ++ l') = bytes l + bytes l' := by
  rw [bytes, map_append, sum_append]
  rfl

def byAge (order : IterOrder (String × SharedBuffer)) (buffers : Table String SharedBuffer) :
    List (String × SharedBuffer) :=
  (order.arrange buffers.pairs).insertionSort fun a b => a.2.createdAt ≤ b.2.createdAt

def toEntry (e : String × SharedBuffer) : Entry := ⟨e.1, e.2.createdAt, e.2.len⟩

section

variable {order : IterOrder (String × SharedBuffer)} {buffers : Table String SharedBuffer}

theorem oldestFirst_eq : oldestFirst order buffers = (byAge order buffers).map toEntry := by
  rw [byAge, map_insertionSort _ (fun a b : Entry => a.created ≤ b.created)]
  · rfl
  · exact fun a _ b _ => Iff.rfl

theorem byAge_perm : (byAge order buffers).Perm buffers.pairs :=
  (perm_insertionSort _ _).trans (order.perm _)

theorem byAge_pairwise :
    (byAge order buffers).Pairwise fun a b => a.2.createdAt ≤ b.2.createdAt :=
  pairwise_insertionSort (fun a b : String × SharedBuffer => a.2.createdAt ≤ b.2.createdAt) _

theorem bytes_of_perm {l : List (String × SharedBuffer)} (h : l.Perm buffers.pairs) :
    bytes l = Table.total SharedBuffer.len buffers := by
  rw [bytes, (h.map _).sum_eq]
  simp [Table.pairs, Table.total, Function.comp_def]

theorem nodup_keys_of_perm {l : List (String × SharedBuffer)} (h : l.Perm buffers.pairs) :
    (l.map Prod.fst).Nodup :=
  ((h.map Prod.fst).nodup_iff).mpr buffers.nodup_keys_pairs

end

/-- **The eviction loop** takes from the front until the rest fits. -/
theorem toRemove_spec {max needed current : ℕ} (hsize : current + needed < Usize.size) :
    ∀ (l : List (String × SharedBuffer)) (freed : ℕ), freed + bytes l ≤ current →
      ∃ removed kept, l = removed ++ kept ∧
        toRemove true max needed current freed (l.map toEntry) = .ok (removed.map Prod.fst) ∧
        (kept = [] ∨ current - (freed + bytes removed) + needed ≤ max) ∧
        ∀ a e b, removed = a ++ e :: b → max < current - (freed + bytes a) + needed := by
  intro l
  induction l with
  | nil =>
    intro freed _
    exact ⟨[], [], rfl, rfl, .inl rfl, fun a e b h => by simp at h⟩
  | cons e l ih =>
    intro freed hle
    have hcons (l' : List (String × SharedBuffer)) : bytes (e :: l') = e.2.len + bytes l' := rfl
    rw [hcons] at hle
    rw [map_cons, toRemove, Usize.sub_of_le true (by omega)]
    simp only [bind, Except.bind]
    rw [Usize.add_of_lt true (by omega)]
    dsimp only
    split
    · -- it fits already
      rename_i hfits
      exact ⟨[], e :: l, rfl, rfl, .inr hfits, fun a e b h => by simp at h⟩
    · rename_i hfull
      obtain ⟨removed, kept, rfl, hkeys, hdone, hneeded⟩ := ih (freed + e.2.len) (by omega)
      have hsum : Usize.add true freed (toEntry e).size = .ok (freed + e.2.len) :=
        Usize.add_of_lt true (by simp only [toEntry]; omega)
      rw [hsum]
      dsimp only
      rw [hkeys]
      refine ⟨e :: removed, kept, rfl, rfl, ?_, ?_⟩
      · rw [hcons, ← Nat.add_assoc]
        exact hdone
      · intro a e' b heq
        cases a with
        | nil => rw [bytes_nil, Nat.add_zero]; omega
        | cons a₀ a =>
          obtain ⟨rfl, hrest⟩ := List.cons.inj heq
          rw [hcons, ← Nat.add_assoc]
          exact hneeded a e' b hrest

variable {p : SharedBufferPool}

theorem evictKey_of_lookup (h : Accounted p) (hold : p.buffers.lookup key = some old) :
    ∃ p', evictKey p key = .ok p' ∧ Accounted p' ∧ p'.maxTotalBytes = p.maxTotalBytes ∧
      p'.currentBytes + old.len = p.currentBytes ∧ p'.buffers = p.buffers.erase key := by
  obtain ⟨hle, haccounted⟩ := h.erase hold
  rw [evictKey, removeSlot, hold]
  dsimp only
  rw [Usize.sub_of_le true hle]
  exact ⟨_, rfl, haccounted.of_stats _, rfl, Nat.sub_add_cancel hle, rfl⟩

/-- **Evicting** a list of stored buffers. -/
theorem evict_spec :
    ∀ (removed : List (String × SharedBuffer)) {p : SharedBufferPool}, Accounted p →
      (removed.map Prod.fst).Nodup → (∀ e ∈ removed, p.buffers.lookup e.1 = some e.2) →
      ∃ p', (removed.map Prod.fst).foldlM evictKey p = .ok p' ∧ Accounted p' ∧
        p'.maxTotalBytes = p.maxTotalBytes ∧ p'.currentBytes + bytes removed = p.currentBytes ∧
        ∀ key, p'.buffers.lookup key =
          if key ∈ removed.map Prod.fst then none else p.buffers.lookup key := by
  intro removed
  induction removed with
  | nil => intro p h _ _; exact ⟨p, rfl, h, rfl, rfl, fun key => rfl⟩
  | cons e removed ih =>
    intro p h hnodup hmem
    obtain ⟨hnew, hnodup⟩ := nodup_cons.mp hnodup
    obtain ⟨p₁, hkey, h₁, hlimit₁, hbytes₁, hbuffers₁⟩ :=
      evictKey_of_lookup h (hmem e mem_cons_self)
    have hother (key : String) (hne : key ≠ e.1) :
        p₁.buffers.lookup key = p.buffers.lookup key := by
      rw [hbuffers₁]
      exact AList.lookup_erase_ne hne
    obtain ⟨p', hrun, hp', hlimit, hbytes, hlookup⟩ := ih h₁ hnodup fun e' he' => by
      rw [hother e'.1 fun heq => hnew (heq ▸ mem_map_of_mem he')]
      exact hmem e' (mem_cons_of_mem e he')
    refine ⟨p', ?_, hp', hlimit.trans hlimit₁, ?_, fun key => ?_⟩
    · rw [map_cons, foldlM_cons, hkey]
      exact hrun
    · have hcons : bytes (e :: removed) = e.2.len + bytes removed := rfl
      omega
    · have hmem_cons : key ∈ (e :: removed).map Prod.fst ↔
          key = e.1 ∨ key ∈ removed.map Prod.fst := mem_cons
      rw [hlookup key]
      by_cases hin : key ∈ removed.map Prod.fst
      · rw [if_pos hin, if_pos (hmem_cons.mpr (.inr hin))]
      · by_cases heq : key = e.1
        · rw [if_neg hin, if_pos (hmem_cons.mpr (.inl heq)), heq, hbuffers₁]
          exact AList.lookup_erase _ _
        · rw [if_neg hin, if_neg fun hmem => (hmem_cons.mp hmem).elim heq hin]
          exact hother key heq

theorem lookup_kept {buffers : Table String SharedBuffer}
    {removed kept : List (String × SharedBuffer)} (hperm : (removed ++ kept).Perm buffers.pairs)
    (key : String) (b : SharedBuffer) :
    (if key ∈ removed.map Prod.fst then none else buffers.lookup key) = some b ↔
      (key, b) ∈ kept := by
  have hnodup := nodup_keys_of_perm hperm
  rw [map_append, nodup_append] at hnodup
  have hmem : buffers.lookup key = some b ↔ (key, b) ∈ removed ++ kept := by
    rw [hperm.mem_iff, Table.mem_pairs]
  split_ifs with hin
  · refine iff_of_false (by simp) fun hkept => ?_
    exact hnodup.2.2 key hin key (mem_map_of_mem hkept) rfl
  · rw [hmem, mem_append]
    refine or_iff_right fun hremoved => ?_
    exact hin (mem_map_of_mem hremoved)

/-- `evict_until_available` in an accounted pool: the list by age is cut in two. -/
theorem evictUntilAvailable_spec (h : Accounted p) (env : Env) {needed : ℕ}
    (hsize : p.currentBytes + needed < Usize.size) :
    ∃ removed kept p', byAge env.order p.buffers = removed ++ kept ∧
      evictUntilAvailable env needed p = .ok p' ∧ Accounted p' ∧
      p'.maxTotalBytes = p.maxTotalBytes ∧ p'.currentBytes = bytes kept ∧
      (∀ key b, p'.buffers.lookup key = some b ↔ (key, b) ∈ kept) ∧
      (kept = [] ∨ bytes kept + needed ≤ p.maxTotalBytes) ∧
      ∀ a e b, removed = a ++ e :: b → p.maxTotalBytes < bytes (e :: b ++ kept) + needed := by
  have hcurrent : bytes (byAge env.order p.buffers) = p.currentBytes := by
    rw [bytes_of_perm byAge_perm, h.current_eq]
    rfl
  obtain ⟨removed, kept, hsplit, hkeys, hdone, hneeded⟩ :=
    @toRemove_spec p.maxTotalBytes _ _ hsize (byAge env.order p.buffers) 0
      (by rw [Nat.zero_add, hcurrent])
  have hperm : (removed ++ kept).Perm p.buffers.pairs := hsplit ▸ byAge_perm
  have hnodup := nodup_keys_of_perm hperm
  rw [map_append, nodup_append] at hnodup
  obtain ⟨p', hrun, hp', hlimit, hbytes, hlookup⟩ := evict_spec removed h hnodup.1 fun e he =>
    Table.mem_pairs.mp (hperm.mem_iff.mp (mem_append_left _ he))
  rw [hsplit, bytes_append] at hcurrent
  refine ⟨removed, kept, p', hsplit, ?_, hp', hlimit, by omega, ?_, ?_, ?_⟩
  · rw [evictUntilAvailable, oldestFirst_eq, hkeys]
    exact hrun
  · intro key b
    rw [hlookup key]
    exact lookup_kept hperm key b
  · refine hdone.imp_right fun hfits => ?_
    rw [← hcurrent, Nat.zero_add, Nat.add_sub_cancel_left] at hfits
    exact hfits
  · rintro a e b rfl
    have hlast := hneeded a e b rfl
    rw [← hcurrent, Nat.zero_add, bytes_append, Nat.add_assoc, Nat.add_sub_cancel_left] at hlast
    rw [bytes_append]
    exact hlast

def otherBytes (p : SharedBufferPool) (slot : String) : ℕ :=
  Table.total SharedBuffer.len (p.buffers.erase slot)

theorem removeSlot_spec (h : Accounted p) (slot : String) :
    ∃ old p₁, removeSlot p slot = .ok (old, p₁) ∧ Accounted p₁ ∧
      p₁.maxTotalBytes = p.maxTotalBytes ∧ p₁.buffers = p.buffers.erase slot ∧
      p₁.currentBytes = otherBytes p slot := by
  have hfree (p₁ : SharedBufferPool) (h₁ : Accounted p₁)
      (hbuffers : p₁.buffers = p.buffers.erase slot) : p₁.currentBytes = otherBytes p slot := by
    rw [h₁.current_eq, storedBytes, hbuffers]
    rfl
  rw [removeSlot]
  split
  · rename_i hnone
    have herase := (Table.erase_eq_self hnone).symm
    exact ⟨none, p, rfl, h, rfl, herase, hfree p h herase⟩
  · rename_i old hold
    obtain ⟨hle, haccounted⟩ := h.erase hold
    rw [Usize.sub_of_le true hle]
    exact ⟨some old, _, rfl, haccounted, rfl, rfl, hfree _ haccounted rfl⟩

theorem fits_of_lt {p : SharedBufferPool} {newSize : ℕ}
    (h : p.currentBytes + newSize < Usize.size) :
    fits p newSize = .ok (decide (p.currentBytes + newSize ≤ p.maxTotalBytes)) := by
  rw [fits, Usize.add_of_lt true h]

/-- **The outcomes of `put`.** -/
theorem put_spec (h : Accounted p) (env : Env) (req : PutRequest) :
    (Usize.size ≤ otherBytes p req.slot + req.data.length ∧ put env req p = .error .size) ∨
    otherBytes p req.slot + req.data.length < Usize.size ∧
    ∃ removed kept p', byAge env.order (p.buffers.erase req.slot) = removed ++ kept ∧
      Accounted p' ∧ p'.maxTotalBytes = p.maxTotalBytes ∧ p'.currentBytes = bytes kept ∧
      (∀ key b, p'.buffers.lookup key = some b ↔ (key, b) ∈ kept) ∧
      (∀ a e b, removed = a ++ e :: b →
        p.maxTotalBytes < bytes (e :: b ++ kept) + req.data.length) ∧
      ((bytes kept + req.data.length ≤ p.maxTotalBytes ∧
          put env req p = .ok (.ok (), store env.now req p')) ∨
        (p.maxTotalBytes < bytes kept + req.data.length ∧ kept = [] ∧
          put env req p = .ok (.error (.capacityExceeded req.data.length p'.maxTotalBytes
            p'.currentBytes), p'))) := by
  obtain ⟨old, p₁, hslot, h₁, hlimit₁, hbuffers₁, hcurrent₁⟩ := removeSlot_spec h req.slot
  have hput : put env req p = (do
      if ← fits p₁ req.data.length then .ok (.ok (), store env.now req p₁)
      else
        let p₂ ← evictUntilAvailable env req.data.length p₁
        if ← fits p₂ req.data.length then .ok (.ok (), store env.now req p₂)
        else .ok (.error (.capacityExceeded req.data.length p₂.maxTotalBytes p₂.currentBytes),
          p₂)) := by
    rw [put, hslot]
    rfl
  rw [hput]
  by_cases hsize : p₁.currentBytes + req.data.length < Usize.size
  · refine .inr ⟨hcurrent₁ ▸ hsize, ?_⟩
    rw [fits_of_lt hsize]
    simp only [bind, Except.bind, decide_eq_true_eq]
    by_cases hroom : p₁.currentBytes + req.data.length ≤ p₁.maxTotalBytes
    · -- nothing has to be evicted
      rw [if_pos hroom]
      have hbytes : bytes (byAge env.order p₁.buffers) = p₁.currentBytes := by
        rw [bytes_of_perm byAge_perm, h₁.current_eq]
        rfl
      refine ⟨[], byAge env.order p₁.buffers, p₁, by rw [← hbuffers₁]; rfl, h₁, hlimit₁,
        hbytes.symm, fun key b => ?_, fun a e b heq => by simp at heq, .inl ⟨?_, rfl⟩⟩
      · rw [byAge_perm.mem_iff, Table.mem_pairs]
      · rw [hbytes, ← hlimit₁]
        exact hroom
    · rw [if_neg hroom]
      obtain ⟨removed, kept, p₂, hsplit, hevict, h₂, hlimit₂, hbytes, hlookup, hdone, hneeded⟩ :=
        evictUntilAvailable_spec h₁ env hsize
      rw [hlimit₁] at hlimit₂ hdone hneeded
      have hle : bytes kept ≤ p₁.currentBytes := by
        rw [h₁.current_eq, storedBytes, ← bytes_of_perm (@byAge_perm env.order _), hsplit,
          bytes_append]
        omega
      have hfits := @fits_of_lt p₂ req.data.length (by omega)
      rw [hbytes, hlimit₂] at hfits
      rw [hevict]
      dsimp only
      rw [hfits]
      dsimp only
      refine ⟨removed, kept, p₂, by rw [← hbuffers₁, hsplit], h₂, hlimit₂, hbytes, hlookup,
        hneeded, ?_⟩
      by_cases hroom₂ : bytes kept + req.data.length ≤ p.maxTotalBytes
      · exact .inl ⟨hroom₂, by rw [if_pos (decide_eq_true hroom₂)]⟩
      · refine .inr ⟨Nat.lt_of_not_le hroom₂, hdone.resolve_right hroom₂, ?_⟩
        rw [if_neg (by simpa using hroom₂)]
  · refine .inl ⟨by omega, ?_⟩
    rw [fits, Usize.add, if_neg hsize, if_pos rfl]
    rfl

theorem accounted_of_runCalls (hrun : runCalls (new maxTotalBytes) calls = .ok p) :
    Accounted p ∧ p.maxTotalBytes = maxTotalBytes := by
  have hnew : Accounted (new maxTotalBytes) ∧ (new maxTotalBytes).maxTotalBytes = maxTotalBytes :=
    ⟨⟨rfl, Nat.zero_le _⟩, rfl⟩
  have houtcome := Outcome.foldlM (E := fun _ : PoolFault => True) calls
    (fun p c _ hp => (accounted_perform p c hp).imp (fun _ _ => trivial) fun _ => id) hnew
  rw [runCalls] at hrun
  rwa [hrun] at houtcome

/-! ## A `put` that fails -/

def Unchanged (p p' : SharedBufferPool) : Prop :=
  (∀ slot b, p.buffers.lookup slot = some b → p'.buffers.lookup slot = some b) ∧
    p'.currentBytes = p.currentBytes

/-- A `put` that fails leaves an empty pool. -/
theorem empty_of_failed (h : Accounted p) (hput : put env req p = .ok (.error e, p')) :
    (∀ slot, p'.buffers.lookup slot = none) ∧ p'.currentBytes = 0 := by
  rcases put_spec h env req with ⟨-, hfault⟩ | ⟨-, removed, kept, p₂, -, -, -, hbytes, hlookup,
    -, ⟨-, hok⟩ | ⟨-, rfl, hfailed⟩⟩
  · rw [hfault] at hput
    cases hput
  · rw [hok] at hput
    cases hput
  · rw [hfailed] at hput
    obtain rfl : p₂ = p' := by cases hput; rfl
    refine ⟨fun slot => ?_, hbytes⟩
    rw [Option.eq_none_iff_forall_ne_some]
    intro b hb
    cases (hlookup slot b).mp hb

/-- **A `put` that fails changes nothing** if and only if there was nothing to change. -/
theorem put_failed_keeps_iff (maxTotalBytes : ℕ) (calls : List (Env × Call))
    (p : SharedBufferPool) (hrun : runCalls (new maxTotalBytes) calls = .ok p) (env : Env)
    (req : PutRequest) (e : BufferError) (p' : SharedBufferPool)
    (hput : put env req p = .ok (.error e, p')) :
    Unchanged p p' ↔ ∀ slot, p.buffers.lookup slot = none := by
  obtain ⟨haccounted, -⟩ := accounted_of_runCalls hrun
  obtain ⟨hempty, hzero⟩ := empty_of_failed haccounted hput
  constructor
  · intro hkeep slot
    rw [Option.eq_none_iff_forall_ne_some]
    intro b hb
    have hstill := hkeep.1 slot b hb
    rw [hempty slot] at hstill
    cases hstill
  · intro hnone
    refine ⟨fun slot b hb => ?_, ?_⟩
    · rw [hnone slot] at hb
      cases hb
    · have hpairs : p.buffers.pairs = [] := by
        rw [eq_nil_iff_forall_not_mem]
        rintro ⟨slot, b⟩ hmem
        rw [Table.mem_pairs, hnone slot] at hmem
        cases hmem
      have htotal := @bytes_of_perm p.buffers [] (hpairs ▸ .refl _)
      rw [hzero, haccounted.current_eq]
      exact htotal

/-- With nothing stored, a failing `put` has nothing to lose. -/
theorem put_failed_on_new :
    ∃ e p', put ⟨.stored _, 1⟩ ⟨"a", List.replicate 11 0, 7⟩ (new 10) = .ok (.error e, p') ∧
      Unchanged (new 10) p' :=
  ⟨_, _, rfl, (put_failed_keeps_iff 10 [] (new 10) rfl ⟨.stored _, 1⟩
    ⟨"a", List.replicate 11 0, 7⟩ _ _ rfl).mpr fun _ => rfl⟩

/-- A `put` of eleven bytes into a pool of ten fails, and `"a"` is gone. -/
theorem put_failed_drops_others :
    ∃ p e p', runCalls (new 10) [(⟨.stored _, 1⟩, .put ⟨"a", List.replicate 6 0, 7⟩)] = .ok p ∧
      put ⟨.stored _, 2⟩ ⟨"b", List.replicate 11 1, 7⟩ p = .ok (.error e, p') ∧
      (p.buffers.lookup "a").isSome = true ∧ p'.buffers.lookup "a" = none ∧ ¬ Unchanged p p' := by
  refine ⟨_, _, _, rfl, rfl, rfl, rfl, ?_⟩
  rintro ⟨hkeep, -⟩
  have hstill := hkeep "a" _ rfl
  cases hstill

/-! ## A `put` that succeeds -/

def DistinctTimes (p : SharedBufferPool) : Prop :=
  ∀ k₁ b₁ k₂ b₂, p.buffers.lookup k₁ = some b₁ → p.buffers.lookup k₂ = some b₂ →
    b₁.createdAt = b₂.createdAt → k₁ = k₂

structure PutRight (env : Env) (req : PutRequest) (p : SharedBufferPool) : Prop where
  /-- it succeeds exactly if the data is within the limit -/
  succeeds_iff : (∃ p', put env req p = .ok (.ok (), p')) ↔ req.data.length ≤ p.maxTotalBytes
  stored : ∀ p', put env req p = .ok (.ok (), p') → ∃ b, (get req.slot p').1 = some b ∧
    b.data = req.data ∧ b.fingerprint = req.fingerprint
  /-- of the other buffers, oldest first, it removes as many as needed and no more -/
  evicted : ∀ p', put env req p = .ok (.ok (), p') → ∃ removed kept,
    (removed ++ kept).Perm (Table.pairs (p.buffers.erase req.slot)) ∧
    ((removed ++ kept).Pairwise fun a b => a.2.createdAt < b.2.createdAt) ∧
    bytes kept + req.data.length ≤ p.maxTotalBytes ∧
    (∀ a e b, removed = a ++ e :: b →
      p.maxTotalBytes < bytes (e :: b ++ kept) + req.data.length) ∧
    ∀ key b, key ≠ req.slot → (p'.buffers.lookup key = some b ↔ (key, b) ∈ kept)

theorem byAge_strict (h : DistinctTimes p) (slot : String)
    (order : IterOrder (String × SharedBuffer)) :
    (byAge order (p.buffers.erase slot)).Pairwise fun a b => a.2.createdAt < b.2.createdAt := by
  have hkeys := pairwise_map.mp (nodup_keys_of_perm (@byAge_perm order
    (p.buffers.erase slot)))
  have hstored (e : String × SharedBuffer) (he : e ∈ byAge order (p.buffers.erase slot)) :
      p.buffers.lookup e.1 = some e.2 := by
    rw [byAge_perm.mem_iff, Table.mem_pairs] at he
    exact Table.lookup_of_lookup_erase he
  refine List.Pairwise.imp_of_mem ?_ (byAge_pairwise.and hkeys)
  rintro a b ha hb ⟨hle, hne⟩
  refine lt_of_le_of_ne hle fun heq => hne ?_
  exact h a.1 a.2 b.1 b.2 (hstored a ha) (hstored b hb) heq

/-- **A `put` evicts the oldest buffers, and no more than needed**, if the sum is a word. -/
theorem put_evicts_oldest_iff (maxTotalBytes : ℕ) (calls : List (Env × Call))
    (p : SharedBufferPool) (hrun : runCalls (new maxTotalBytes) calls = .ok p)
    (hdistinct : DistinctTimes p) (env : Env) (req : PutRequest) :
    PutRight env req p ↔
      (req.data.length ≤ maxTotalBytes →
        otherBytes p req.slot + req.data.length < Usize.size) := by
  obtain ⟨haccounted, rfl⟩ := accounted_of_runCalls hrun
  rcases put_spec haccounted env req with ⟨hsize, hfault⟩ | ⟨hsize, removed, kept, p₂, hsplit,
    -, -, -, hlookup, hneeded, ⟨hroom, hok⟩ | ⟨hfull, rfl, hfailed⟩⟩
  · -- the sum is not a machine word
    have hno (p' : SharedBufferPool) : put env req p ≠ .ok (.ok (), p') := by
      rw [hfault]
      exact fun h => by cases h
    constructor
    · intro hright hle
      obtain ⟨p', hp'⟩ := hright.succeeds_iff.mpr hle
      exact absurd hp' (hno p')
    · intro hword
      refine ⟨iff_of_false ?_ fun hle => ?_, ?_, ?_⟩
      · rintro ⟨p', hp'⟩
        exact hno p' hp'
      · exact absurd (hword hle) (Nat.not_lt.mpr hsize)
      · exact fun p' hp' => absurd hp' (hno p')
      · exact fun p' hp' => absurd hp' (hno p')
  · refine iff_of_true ?_ fun _ => hsize
    have hresult (p' : SharedBufferPool) (hp' : put env req p = .ok (.ok (), p')) :
        p' = store env.now req p₂ := by
      rw [hok] at hp'
      cases hp'
      rfl
    refine ⟨iff_of_true ⟨_, hok⟩ (by omega), fun p' hp' => ?_, fun p' hp' => ?_⟩
    · rw [hresult p' hp']
      refine ⟨⟨req.slot, req.data, req.fingerprint, env.now⟩, ?_, rfl, rfl⟩
      simp [get, store]
    · rw [hresult p' hp']
      refine ⟨removed, kept, hsplit ▸ byAge_perm, hsplit ▸ byAge_strict hdistinct req.slot _,
        hroom, hneeded, fun key b hkey => ?_⟩
      rw [← hlookup key b, store, AList.lookup_insert_ne hkey]
  · refine iff_of_true ?_ fun _ => hsize
    have hno (p' : SharedBufferPool) : put env req p ≠ .ok (.ok (), p') := by
      rw [hfailed]
      exact fun h => by cases h
    refine ⟨iff_of_false ?_ ?_, ?_, ?_⟩
    · rintro ⟨p', hp'⟩
      exact hno p' hp'
    · rw [bytes_nil, Nat.zero_add] at hfull
      exact Nat.not_le.mpr hfull
    · exact fun p' hp' => absurd hp' (hno p')
    · exact fun p' hp' => absurd hp' (hno p')

theorem distinctTimes_of_nodup (h : (p.buffers.pairs.map fun e => e.2.createdAt).Nodup) :
    DistinctTimes p := by
  intro k₁ b₁ k₂ b₂ h₁ h₂ heq
  have hpair := inj_on_of_nodup_map h (Table.mem_pairs.mpr h₁) (Table.mem_pairs.mpr h₂) heq
  exact congrArg Prod.fst hpair

theorem put_evicts_oldest_ten :
    ∃ p, runCalls (new 10) [(⟨.stored _, 1⟩, .put ⟨"a", List.replicate 6 0, 7⟩)] = .ok p ∧
      PutRight ⟨.stored _, 2⟩ ⟨"b", List.replicate 6 1, 7⟩ p := by
  refine ⟨_, rfl, (put_evicts_oldest_iff 10 [(⟨.stored _, 1⟩, .put ⟨"a", List.replicate 6 0, 7⟩)] _
    rfl ?_ ⟨.stored _, 2⟩ ⟨"b", List.replicate 6 1, 7⟩).mpr fun _ => ?_⟩
  · exact distinctTimes_of_nodup (by decide +kernel)
  · decide +kernel

/-- A `put` into a free slot, with enough room. -/
theorem put_of_room (env : Env) (hslot : p.buffers.lookup req.slot = none)
    (hsize : p.currentBytes + req.data.length < Usize.size)
    (hroom : p.currentBytes + req.data.length ≤ p.maxTotalBytes) :
    put env req p = .ok (.ok (), store env.now req p) := by
  rw [put, removeSlot, hslot]
  simp only [bind, Except.bind, fits_of_lt hsize, hroom, decide_true, if_true]

/-! ### Slots that share their data -/

/-- `put` of a clone of the data; a clone shares its memory. -/
def share (data : List UInt8) (i : ℕ) : PutRequest := ⟨String.ofList (replicate i 'a'), data, 7⟩

def shares (data : List UInt8) (n : ℕ) : List (Env × Call) :=
  (range n).map fun i => (⟨.stored _, i⟩, .put (share data i))

/-- What the pool holds after the first `n` clones have been put. -/
structure Shared (data : List UInt8) (n : ℕ) (p : SharedBufferPool) : Prop where
  limit : p.maxTotalBytes = 2 ^ 64 - 1
  current : p.currentBytes = n * data.length
  slot : ∀ key b, p.buffers.lookup key = some b →
    b.createdAt < n ∧ key = (share data b.createdAt).slot

theorem Shared.lookup_eq_none (h : Shared data n p) :
    p.buffers.lookup (share data n).slot = none := by
  refine Option.eq_none_iff_forall_ne_some.mpr fun b hb => ?_
  obtain ⟨hlt, heq⟩ := h.slot _ b hb
  have hlength := congrArg List.length (String.ofList_injective heq)
  rw [length_replicate, length_replicate] at hlength
  omega

theorem Shared.store (h : Shared data n p) (hfits : n * data.length + data.length < Usize.size) :
    Shared data (n + 1) (store n (share data n) p) := by
  refine ⟨h.limit, ?_, Table.forall_lookup_insert ⟨Nat.lt_succ_self n, rfl⟩ fun key b hb => ?_⟩
  · have hcurrent := Usize.wrapAdd_of_lt hfits
    rw [← h.current] at hcurrent
    rw [Nat.succ_mul, ← h.current, ← hcurrent]
    rfl
  · obtain ⟨hlt, heq⟩ := h.slot key b hb
    exact ⟨Nat.lt_succ_of_lt hlt, heq⟩

/-- The clones are put one after another, by induction on their number. -/
theorem runCalls_shares (data : List UInt8) (n : ℕ) (hfits : n * data.length < 2 ^ 64) :
    ∃ p, runCalls (new (2 ^ 64 - 1)) (shares data n) = .ok p ∧ Shared data n p := by
  induction n with
  | zero => exact ⟨_, rfl, rfl, (Nat.zero_mul _).symm, nofun⟩
  | succ n ih =>
    rw [Nat.succ_mul] at hfits
    obtain ⟨p, hrun, hp⟩ := ih (by omega)
    have hput : put ⟨.stored _, n⟩ (share data n) p = .ok (.ok (), store n (share data n) p) := by
      apply put_of_room _ hp.lookup_eq_none
      · rw [hp.current]
        exact hfits
      · rw [hp.current, hp.limit]
        exact Nat.le_sub_one_of_lt hfits
    refine ⟨_, ?_, hp.store hfits⟩
    rw [runCalls, shares] at hrun
    rw [runCalls, shares, range_succ, map_append, foldlM_append, hrun, map_singleton]
    simp only [bind, Except.bind, foldlM_cons, perform, hput, Except.map]
    rfl

/-- 2^18 slots share one mapping of 2^46 bytes: the last `put` does not return, although its data
is within the limit. -/
theorem put_overflows :
    ∃ data p, data.length = 2 ^ 46 ∧
      runCalls (new (2 ^ 64 - 1)) (shares data (2 ^ 18 - 1)) = .ok p ∧ DistinctTimes p ∧
      put ⟨.stored _, 2 ^ 18 - 1⟩ (share data (2 ^ 18 - 1)) p = .error .size ∧
      ¬ PutRight ⟨.stored _, 2 ^ 18 - 1⟩ (share data (2 ^ 18 - 1)) p := by
  obtain ⟨data, hdata⟩ : ∃ data : List UInt8, data.length = 2 ^ 46 :=
    ⟨replicate (2 ^ 46) 0, length_replicate⟩
  obtain ⟨p, hrun, hp⟩ := runCalls_shares data (2 ^ 18 - 1) (by rw [hdata]; decide)
  have hput : put ⟨.stored _, 2 ^ 18 - 1⟩ (share data (2 ^ 18 - 1)) p = .error .size := by
    rw [put, removeSlot, hp.lookup_eq_none]
    have hlength : (share data (2 ^ 18 - 1)).data.length = 2 ^ 46 := hdata
    simp only [bind, Except.bind, fits, hp.current, hlength, hdata]
    rfl
  refine ⟨data, p, hdata, hrun, fun k₁ b₁ k₂ b₂ h₁ h₂ heq => ?_, hput, fun hright => ?_⟩
  · rw [(hp.slot k₁ b₁ h₁).2, (hp.slot k₂ b₂ h₂).2, heq]
  · have hle : (share data (2 ^ 18 - 1)).data.length ≤ p.maxTotalBytes := by
      rw [hp.limit]
      exact hdata.trans_le (by decide)
    obtain ⟨p', hp'⟩ := hright.succeeds_iff.mpr hle
    rw [hput] at hp'
    cases hp'

end AlloyAgent.BufferPool
