import AlloyAgent.HashTable
import AlloyAgent.Outcome
import Mathlib.Algebra.BigOperators.Group.List.Basic

/-!
# The shared buffer pool, one call after another

`SharedBufferPool` keeps named buffers and a counter of the bytes they hold.

* `put`, `get`, `take`, `clear`: the calls, where an overflow is a fault;
* `runCalls_accounted`: after any calls the counter is the sum of the sizes.
-/

namespace AlloyAgent.BufferPool

structure SharedBuffer where
  slot : String
  data : List UInt8
  /-- Fingerprint for cache validation / versioning. -/
  fingerprint : UInt64
  createdAt : ℕ
  deriving DecidableEq

def SharedBuffer.len (b : SharedBuffer) : ℕ := b.data.length

structure BufferStats where
  allocations : ℕ
  zeroCopyReads : ℕ
  takes : ℕ
  bytesStoredTotal : ℕ
  evictions : ℕ
  deriving DecidableEq

inductive BufferError where
  | capacityExceeded (needed limit used : ℕ)
  deriving DecidableEq

def BufferError.message : BufferError → String
  | .capacityExceeded needed limit used =>
    "buffer pool capacity exceeded: need " ++ toString needed ++ " bytes, limit is " ++
      toString limit ++ ", used " ++ toString used

/-- Pool of named shared buffers for zero-copy data passing. -/
structure SharedBufferPool where
  buffers : Table String SharedBuffer
  maxTotalBytes : ℕ
  currentBytes : ℕ
  stats : BufferStats

def new (maxTotalBytes : ℕ) : SharedBufferPool := ⟨∅, maxTotalBytes, 0, ⟨0, 0, 0, 0, 0⟩⟩

structure Env where
  order : IterOrder (String × SharedBuffer)
  now : ℕ

inductive PoolFault where
  /-- `current + new_size` in `put` -/
  | size
  /-- any other addition or subtraction -/
  | arith (o : Usize.Overflow)
  deriving DecidableEq

structure PutRequest where
  slot : String
  data : List UInt8
  fingerprint : UInt64
  deriving DecidableEq

/-- Key, creation time and length of a stored buffer. -/
structure Entry where
  key : String
  created : ℕ
  size : ℕ
  deriving DecidableEq

/-- The entries of the map, oldest first (`sort_by_key` is stable). -/
def oldestFirst (order : IterOrder (String × SharedBuffer)) (buffers : Table String SharedBuffer) :
    List Entry :=
  ((order.arrange buffers.pairs).map fun e => ⟨e.1, e.2.createdAt, e.2.len⟩).insertionSort
    fun a b => a.created ≤ b.created

/-- The loop of `evict_until_available` that collects `to_remove`. -/
def toRemove (checks : Bool) (maxTotalBytes needed current : ℕ) :
    ℕ → List Entry → Except Usize.Overflow (List String)
  | _, [] => .ok []
  | freed, e :: entries => do
    let rest ← Usize.sub checks current freed
    let total ← Usize.add checks rest needed
    if total ≤ maxTotalBytes then .ok []
    else
      let freed ← Usize.add checks freed e.size
      let keys ← toRemove checks maxTotalBytes needed current freed entries
      .ok (e.key :: keys)

/-- `buffers.remove(slot)` followed by `fetch_sub` of the length. -/
def removeSlot (p : SharedBufferPool) (slot : String) :
    Except PoolFault (Option SharedBuffer × SharedBufferPool) :=
  match p.buffers.lookup slot with
  | none => .ok (none, p)
  | some old =>
    match Usize.sub true p.currentBytes old.len with
    | .ok current =>
      .ok (some old, { p with buffers := p.buffers.erase slot, currentBytes := current })
    | .error o => .error (.arith o)

def evictKey (p : SharedBufferPool) (key : String) : Except PoolFault SharedBufferPool := do
  match ← removeSlot p key with
  | (some _, p) => .ok { p with stats := { p.stats with evictions := p.stats.evictions + 1 } }
  | (none, p) => .ok p

/-- Evict oldest entries until `needed` bytes can be accommodated. -/
def evictUntilAvailable (env : Env) (needed : ℕ) (p : SharedBufferPool) :
    Except PoolFault SharedBufferPool :=
  match toRemove true p.maxTotalBytes needed p.currentBytes 0 (oldestFirst env.order p.buffers) with
  | .ok keys => keys.foldlM evictKey p
  | .error o => .error (.arith o)

def fits (p : SharedBufferPool) (newSize : ℕ) : Except PoolFault Bool :=
  match Usize.add true p.currentBytes newSize with
  | .ok total => .ok (decide (total ≤ p.maxTotalBytes))
  | .error _ => .error .size

/-- The end of `put`: count the bytes and insert the buffer. -/
def store (now : ℕ) (req : PutRequest) (p : SharedBufferPool) : SharedBufferPool :=
  { p with
    currentBytes := Usize.wrapAdd p.currentBytes req.data.length
    stats := { p.stats with
      allocations := p.stats.allocations + 1
      bytesStoredTotal := p.stats.bytesStoredTotal + req.data.length }
    buffers := p.buffers.insert req.slot ⟨req.slot, req.data, req.fingerprint, now⟩ }

/-- Store data in a named slot. -/
def put (env : Env) (req : PutRequest) (p : SharedBufferPool) :
    Except PoolFault (Except BufferError Unit × SharedBufferPool) := do
  let (_, p) ← removeSlot p req.slot
  if ← fits p req.data.length then .ok (.ok (), store env.now req p)
  else
    let p ← evictUntilAvailable env req.data.length p
    if ← fits p req.data.length then .ok (.ok (), store env.now req p)
    else
      .ok (.error (.capacityExceeded req.data.length p.maxTotalBytes p.currentBytes), p)

def get (slot : String) (p : SharedBufferPool) : Option SharedBuffer × SharedBufferPool :=
  match p.buffers.lookup slot with
  | some b =>
    (some b, { p with stats := { p.stats with zeroCopyReads := p.stats.zeroCopyReads + 1 } })
  | none => (none, p)

/-- Take data from a slot, removing it. -/
def take (slot : String) (p : SharedBufferPool) :
    Except PoolFault (Option SharedBuffer × SharedBufferPool) := do
  match ← removeSlot p slot with
  | (some b, p) => .ok (some b, { p with stats := { p.stats with takes := p.stats.takes + 1 } })
  | (none, p) => .ok (none, p)

def clear (p : SharedBufferPool) : SharedBufferPool := { p with buffers := ∅, currentBytes := 0 }

inductive Call where
  | put (req : PutRequest)
  | get (slot : String)
  | take (slot : String)
  | clear
  deriving DecidableEq

inductive Response where
  | put (result : Except BufferError Unit)
  | get (buffer : Option SharedBuffer)
  | take (buffer : Option SharedBuffer)
  | clear

def perform (env : Env) (p : SharedBufferPool) :
    Call → Except PoolFault (Response × SharedBufferPool)
  | .put req => (put env req p).map fun r => (.put r.1, r.2)
  | .get slot => .ok (.get (get slot p).1, (get slot p).2)
  | .take slot => (take slot p).map fun r => (.take r.1, r.2)
  | .clear => .ok (.clear, clear p)

/-- A sequence of calls, each in an environment of its own. -/
def runCalls (p : SharedBufferPool) (calls : List (Env × Call)) :
    Except PoolFault SharedBufferPool :=
  calls.foldlM (fun p c => (perform c.1 p c.2).map Prod.snd) p

def storedBytes (p : SharedBufferPool) : ℕ := Table.total SharedBuffer.len p.buffers

/-- The counter is what is stored, and within the limit. -/
structure Accounted (p : SharedBufferPool) : Prop where
  current_eq : p.currentBytes = storedBytes p
  current_le : p.currentBytes ≤ p.maxTotalBytes

/-- No fault but an overflow of `current + new_size`, where the sum is at most
`most`. -/
abbrev Sound {α : Type} (most : ℕ) (Q : α → Prop) (x : Except PoolFault α) : Prop :=
  Outcome (fun fault => fault = .size ∧ Usize.size ≤ most) Q x

section

variable {most : ℕ}

/-- The slot is free, in an accounted pool with the given limit. -/
structure Reclaimed (slot : String) (limit : ℕ) (p : SharedBufferPool) : Prop extends
    Accounted p where
  lookup_eq : p.buffers.lookup slot = none
  limit_eq : p.maxTotalBytes = limit

variable {p : SharedBufferPool}

theorem Accounted.of_stats (h : Accounted p) (stats : BufferStats) :
    Accounted { p with stats := stats } :=
  ⟨h.current_eq, h.current_le⟩

variable {slot : String}

theorem Accounted.erase (h : Accounted p) (hold : p.buffers.lookup slot = some old) :
    old.len ≤ p.currentBytes ∧ Accounted
      { p with buffers := p.buffers.erase slot, currentBytes := p.currentBytes - old.len } := by
  have htotal : storedBytes p = old.len + Table.total SharedBuffer.len (p.buffers.erase slot) :=
    Table.total_erase hold
  have hcur := h.current_eq
  have hle := h.current_le
  refine ⟨by omega, ⟨?_, ?_⟩⟩
  · simp only [storedBytes]
    omega
  · dsimp only
    omega

theorem sound_removeSlot (h : Accounted p) (slot : String) :
    Sound most (fun r => Reclaimed slot p.maxTotalBytes r.2) (removeSlot p slot) := by
  rw [removeSlot]
  split
  · rename_i hnone
    exact ⟨h, hnone, rfl⟩
  · rename_i old hold
    obtain ⟨hle, haccounted⟩ := h.erase hold
    rw [Usize.sub_of_le true hle]
    exact ⟨haccounted, AList.lookup_erase _ _, rfl⟩

theorem sound_evictKey (p : SharedBufferPool) (key : String) (h : Reclaimed slot limit p) :
    Sound most (Reclaimed slot limit) (evictKey p key) := by
  have hkeep : (p.buffers.erase key).lookup slot = none := by
    rw [Table.lookup_erase_eq, h.lookup_eq, ite_self]
  unfold evictKey removeSlot
  split
  · exact h
  · rename_i old hold
    obtain ⟨hle, haccounted⟩ := h.toAccounted.erase hold
    rw [Usize.sub_of_le true hle]
    exact ⟨haccounted.of_stats _, hkeep, h.limit_eq⟩

theorem sum_size_oldestFirst (order : IterOrder (String × SharedBuffer))
    (buffers : Table String SharedBuffer) :
    ((oldestFirst order buffers).map Entry.size).sum = Table.total SharedBuffer.len buffers := by
  have hsort := (List.perm_insertionSort (fun a b : Entry => a.created ≤ b.created)
    ((order.arrange buffers.pairs).map fun e => ⟨e.1, e.2.createdAt, e.2.len⟩)).map Entry.size
  have hiter := (order.perm buffers.pairs).map fun e => e.2.len
  rw [oldestFirst, hsort.sum_eq, List.map_map]
  refine (List.Perm.sum_eq hiter).trans ?_
  simp [Table.pairs, Table.total, Function.comp_def]

/-- While the sizes in the list are part of the counter, nothing leaves the
range. -/
theorem exists_toRemove {checks : Bool} {max needed current : ℕ}
    (hsize : current + needed < Usize.size) :
    ∀ (entries : List Entry) (freed : ℕ), freed + (entries.map Entry.size).sum ≤ current →
      ∃ keys, toRemove checks max needed current freed entries = .ok keys := by
  intro entries
  induction entries with
  | nil => intro freed _; exact ⟨[], rfl⟩
  | cons e entries ih =>
    intro freed hle
    rw [List.map_cons, List.sum_cons] at hle
    rw [toRemove, Usize.sub_of_le checks (by omega)]
    simp only [bind, Except.bind]
    rw [Usize.add_of_lt checks (by omega)]
    dsimp only
    split
    · exact ⟨[], rfl⟩
    · obtain ⟨keys, hkeys⟩ := ih (freed + e.size) (by omega)
      rw [Usize.add_of_lt checks (by omega)]
      dsimp only
      rw [hkeys]
      exact ⟨e.key :: keys, rfl⟩

theorem sound_evictUntilAvailable {limit needed : ℕ} (env : Env) (h : Reclaimed slot limit p)
    (hsize : p.currentBytes + needed < Usize.size) :
    Sound most (Reclaimed slot limit) (evictUntilAvailable env needed p) := by
  have hsum : 0 + ((oldestFirst env.order p.buffers).map Entry.size).sum ≤ p.currentBytes := by
    rw [sum_size_oldestFirst, Nat.zero_add, h.current_eq]
    exact le_rfl
  obtain ⟨keys, hkeys⟩ := exists_toRemove hsize _ 0 hsum
  rw [evictUntilAvailable, hkeys]
  exact Outcome.foldlM keys (fun p key _ => sound_evictKey p key) h

end

variable {p : SharedBufferPool}

theorem sound_fits (h : Accounted p) (newSize : ℕ) :
    Sound (p.maxTotalBytes + newSize) (fun b => p.currentBytes + newSize < Usize.size ∧
      b = decide (p.currentBytes + newSize ≤ p.maxTotalBytes)) (fits p newSize) := by
  by_cases hlt : p.currentBytes + newSize < Usize.size
  · rw [fits, Usize.add_of_lt true hlt]
    exact ⟨hlt, rfl⟩
  · have hle := h.current_le
    simp only [fits, Usize.add, if_neg hlt, if_true]
    exact ⟨rfl, by omega⟩

theorem accounted_store (now : ℕ) (req : PutRequest) (h : Reclaimed req.slot limit p)
    (hsize : p.currentBytes + req.data.length < Usize.size)
    (hfits : p.currentBytes + req.data.length ≤ p.maxTotalBytes) : Accounted (store now req p) := by
  have hsum : storedBytes (store now req p) = req.data.length + storedBytes p := by
    simp only [storedBytes, store]
    rw [Table.total_insert, Table.erase_eq_self h.lookup_eq]
    rfl
  refine ⟨?_, ?_⟩
  · rw [hsum, ← h.current_eq, Nat.add_comm]
    exact Usize.wrapAdd_of_lt hsize
  · exact (Usize.wrapAdd_of_lt hsize).le.trans hfits

theorem accounted_put (env : Env) (req : PutRequest) (h : Accounted p) :
    Sound (p.maxTotalBytes + req.data.length)
      (fun r => Accounted r.2 ∧ r.2.maxTotalBytes = p.maxTotalBytes) (put env req p) := by
  refine (sound_removeSlot h req.slot).bind fun r hr => ?_
  have hfits₁ := sound_fits hr.toAccounted req.data.length
  rw [hr.limit_eq] at hfits₁
  refine hfits₁.bind fun b hb => ?_
  obtain ⟨hsize, rfl⟩ := hb
  split_ifs with hfits
  · exact ⟨accounted_store env.now req hr hsize (by simpa [hr.limit_eq] using hfits), hr.limit_eq⟩
  · refine (sound_evictUntilAvailable env hr hsize).bind fun p₂ hp₂ => ?_
    have hfits₂ := sound_fits hp₂.toAccounted req.data.length
    rw [hp₂.limit_eq] at hfits₂
    refine hfits₂.bind fun b hb => ?_
    obtain ⟨hsize₂, rfl⟩ := hb
    split_ifs with hroom
    · refine ⟨accounted_store env.now req hp₂ hsize₂ ?_, hp₂.limit_eq⟩
      simpa [hp₂.limit_eq] using hroom
    · exact ⟨hp₂.toAccounted, hp₂.limit_eq⟩

theorem accounted_take (slot : String) (h : Accounted p) :
    Sound most (fun r => Accounted r.2 ∧ r.2.maxTotalBytes = p.maxTotalBytes) (take slot p) := by
  refine (sound_removeSlot h slot).bind fun r hr => ?_
  obtain ⟨b | b, p'⟩ := r
  · exact ⟨hr.toAccounted, hr.limit_eq⟩
  · exact ⟨hr.toAccounted.of_stats _, hr.limit_eq⟩

def Call.newSize : Call → ℕ
  | .put req => req.data.length
  | _ => 0

theorem accounted_perform (p : SharedBufferPool) (c : Env × Call)
    (h : Accounted p ∧ p.maxTotalBytes = limit) :
    Sound (limit + c.2.newSize) (fun p' => Accounted p' ∧ p'.maxTotalBytes = limit)
      ((perform c.1 p c.2).map Prod.snd) := by
  obtain ⟨env, call⟩ := c
  obtain ⟨h, rfl⟩ := h
  cases call with
  | put req => exact Outcome.map_iff.mpr (Outcome.map_iff.mpr (accounted_put env req h))
  | get slot =>
    simp only [perform, get]
    split
    · exact ⟨h.of_stats _, rfl⟩
    · exact ⟨h, rfl⟩
  | take slot => exact Outcome.map_iff.mpr (Outcome.map_iff.mpr (accounted_take slot h))
  | clear => exact ⟨⟨rfl, Nat.zero_le _⟩, rfl⟩

/-- **The counter is what is stored**, after every sequence of calls. -/
theorem runCalls_accounted (maxTotalBytes : ℕ) (calls : List (Env × Call)) :
    (∀ p, runCalls (new maxTotalBytes) calls = .ok p →
        p.currentBytes = storedBytes p ∧ p.currentBytes ≤ maxTotalBytes) ∧
      ∀ fault, runCalls (new maxTotalBytes) calls = .error fault →
        fault = .size ∧ ∃ c ∈ calls, Usize.size ≤ maxTotalBytes + c.2.newSize := by
  have hnew : Accounted (new maxTotalBytes) ∧ (new maxTotalBytes).maxTotalBytes = maxTotalBytes :=
    ⟨⟨rfl, Nat.zero_le _⟩, rfl⟩
  have hrun := Outcome.foldlM (E := fun fault => fault = .size ∧
      ∃ c ∈ calls, Usize.size ≤ maxTotalBytes + c.2.newSize) calls
    (fun p c hc hp => (accounted_perform p c hp).imp (fun _ he => ⟨he.1, c, hc, he.2⟩) fun _ => id)
    hnew
  refine ⟨fun p hp => ?_, fun fault hfault => ?_⟩
  · rw [runCalls] at hp
    rw [hp] at hrun
    obtain ⟨h, rfl⟩ := hrun
    exact ⟨h.current_eq, h.current_le⟩
  · rw [runCalls] at hfault
    rw [hfault] at hrun
    exact hrun

def evictingCalls : List (Env × Call) :=
  [(⟨.stored _, 1⟩, .put ⟨"a", List.replicate 6 0, 7⟩),
    (⟨.stored _, 2⟩, .put ⟨"b", List.replicate 6 1, 7⟩),
    (⟨.stored _, 3⟩, .put ⟨"c", List.replicate 11 2, 7⟩),
    (⟨.stored _, 4⟩, .put ⟨"d", List.replicate 4 3, 7⟩),
    (⟨.stored _, 5⟩, .get "a")]

theorem evictingCalls_accounted :
    ∃ p, runCalls (new 10) evictingCalls = .ok p ∧ p.currentBytes = 4 ∧
      p.currentBytes = storedBytes p := by
  refine ⟨_, rfl, rfl, ?_⟩
  exact ((runCalls_accounted 10 evictingCalls).1 _ rfl).1

end AlloyAgent.BufferPool
