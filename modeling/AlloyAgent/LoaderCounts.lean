import AlloyAgent.LazyLoader

/-!
# What the loader counts

The statistics of the loader are kept beside the cache, not by it: the eviction counter is predicted
from the length of the cache before an insertion.

* `Counted`: what every operation preserves;
* `loader_counts`: what the counters say after a run.
-/

namespace AlloyAgent

open Option Transition

universe u

namespace LazyLoader

variable {μ : Type u} {compile : List UInt8 → Except String μ} {s : LazyWasmLoader μ}

inductive Access (s : LazyWasmLoader μ) (id : String) : LazyWasmLoader μ → Prop
  | hit (entry : ModuleEntry μ) (hentry : s.cache.lookup id = some entry) :
    Access s id { s with
      cache := (s.cache.get id).2
      stats := { s.stats with cacheHits := s.stats.cacheHits + 1 } }
  | failed (hmiss : s.cache.lookup id = none) :
    Access s id { s with stats := { s.stats with cacheMisses := s.stats.cacheMisses + 1 } }
  | compiled (hmiss : s.cache.lookup id = none) (wasmBytes : List UInt8)
      (hbytes : s.registered.lookup id = some wasmBytes) (entry : ModuleEntry μ) :
    Access s id { s with
      cache := s.cache.put id entry
      stats := { s.stats with
        cacheMisses := s.stats.cacheMisses + 1
        totalCompileTimeUs := s.stats.totalCompileTimeUs + entry.compileTimeUs
        modulesCompiled := s.stats.modulesCompiled + 1
        evictions :=
          if s.cache.len = s.cache.cap then s.stats.evictions + 1 else s.stats.evictions } }

theorem access_getOrCompile (compile : List UInt8 → Except String μ) (clock : Clock)
    (s : LazyWasmLoader μ) (id : String) : Access s id (getOrCompile compile clock s id).2 := by
  cases hcached : s.cache.lookup id with
  | some entry =>
    have hfst : (s.cache.get id).1 = some entry := (s.cache.get_fst id).trans hcached
    have hget : s.cache.get id = (some entry, (s.cache.get id).2) := Prod.ext hfst rfl
    rw [getOrCompile, hget]
    exact .hit entry hcached
  | none =>
    rw [getOrCompile, LruCache.get_of_absent hcached]
    dsimp only
    split
    · exact .failed hcached
    · rename_i wasmBytes hbytes
      split
      · exact .failed hcached
      · exact .compiled hcached wasmBytes hbytes ⟨_, clock.now, clock.compileTimeUs⟩

def Op.isAccess : Op → Bool
  | .getOrCompile _ _ | .preload _ _ => true
  | _ => false

/-- Whether the operation unregisters a module that is cached. -/
def dropsCached (s : LazyWasmLoader μ) : Op → ℕ
  | .unregister id => if (s.cache.lookup id).isSome then 1 else 0
  | _ => 0

/-- What holds of a loader from which so many cached modules have been dropped. -/
structure Counted (maxCached drops : ℕ) (s : LazyWasmLoader μ) : Prop where
  registered : ∀ id entry, s.cache.lookup id = some entry →
    ∃ wasmBytes, s.registered.lookup id = some wasmBytes
  cap : s.cache.cap = max maxCached 1
  /-- what was compiled is cached, evicted or dropped -/
  compiled : s.stats.modulesCompiled = s.cache.len + s.stats.evictions + drops

namespace Counted

variable {maxCached drops : ℕ}

section

variable (h : Counted maxCached drops s)
include h

theorem registerModule (id : String) (wasmBytes : List UInt8) :
    Counted maxCached drops (registerModule s id wasmBytes) where
  registered := by
    intro id' entry hentry
    by_cases hid : id' = id
    · subst hid
      exact ⟨wasmBytes, AList.lookup_insert _⟩
    · obtain ⟨old, hold⟩ := h.registered id' entry hentry
      exact ⟨old, (AList.lookup_insert_ne hid).trans hold⟩
  cap := h.cap
  compiled := h.compiled

theorem unregisterModule (id : String) :
    Counted maxCached (drops + if (s.cache.lookup id).isSome then 1 else 0)
      (unregisterModule s id) where
  registered := by
    intro id' entry hentry
    obtain ⟨hid, hlookup⟩ := LruCache.lookup_pop hentry
    obtain ⟨wasmBytes, hbytes⟩ := h.registered id' entry hlookup
    exact ⟨wasmBytes, (AList.lookup_erase_ne hid).trans hbytes⟩
  cap := h.cap
  compiled := by
    have hlen := s.cache.len_pop id
    have hcompiled := h.compiled
    simp only [LazyLoader.unregisterModule]
    omega

theorem evict (id : String) : Counted maxCached drops (evict s id) := by
  have hregistered : ∀ id' entry, (s.cache.pop id).2.lookup id' = some entry →
      ∃ wasmBytes, s.registered.lookup id' = some wasmBytes :=
    fun id' entry hentry => h.registered id' entry (LruCache.lookup_pop hentry).2
  have hlen := s.cache.len_pop id
  have hcompiled := h.compiled
  have hpop : s.cache.pop id = (s.cache.lookup id, (s.cache.pop id).2) := rfl
  rw [LazyLoader.evict, hpop]
  cases hcached : s.cache.lookup id with
  | some entry =>
    rw [hcached, isSome_some, if_pos rfl] at hlen
    exact ⟨hregistered, h.cap, by dsimp only; omega⟩
  | none =>
    rw [hcached, isSome_none, if_neg Bool.false_ne_true] at hlen
    exact ⟨hregistered, h.cap, by dsimp only; omega⟩

/-- The prediction is right: only an insertion into a full cache evicts a module. -/
theorem access {id : String} {s' : LazyWasmLoader μ} (haccess : Access s id s') :
    Counted maxCached drops s' := by
  cases haccess with
  | hit entry hentry =>
    refine ⟨fun id' entry' h' => ?_, by rw [LruCache.cap_get]; exact h.cap, ?_⟩
    · rw [LruCache.lookup_get] at h'
      exact h.registered id' entry' h'
    · rw [LruCache.len_get]
      exact h.compiled
  | failed hmiss => exact ⟨h.registered, h.cap, h.compiled⟩
  | compiled hmiss wasmBytes hbytes entry =>
    refine ⟨fun id' entry' h' => ?_, h.cap, ?_⟩
    · rcases LruCache.lookup_put h' with ⟨rfl, -⟩ | ⟨-, hold⟩
      · exact ⟨wasmBytes, hbytes⟩
      · exact h.registered id' entry' hold
    · have hlen := LruCache.len_put (w := entry) hmiss
      have hcompiled := h.compiled
      dsimp only
      split_ifs at hlen ⊢ <;> omega

end

theorem step (drops : ℕ) (s : LazyWasmLoader μ) (op : Op) (s' : LazyWasmLoader μ)
    (h : Counted maxCached drops s) (hstep : LazyLoader.step compile s op = some s') :
    Counted maxCached (drops + dropsCached s op) s' := by
  cases op with
  | register id wasmBytes => exact some.inj hstep ▸ h.registerModule id wasmBytes
  | unregister id => exact some.inj hstep ▸ h.unregisterModule id
  | getOrCompile id clock =>
    exact some.inj hstep ▸ h.access (access_getOrCompile compile clock s id)
  | preload id clock =>
    exact some.inj hstep ▸ h.access (access_getOrCompile compile clock s id)
  | evict id => exact some.inj hstep ▸ h.evict id

end Counted

/-- Hits and misses together are the accesses so far. -/
def AccessesCounted (ops : List Op) (s : LazyWasmLoader μ) : Prop :=
  s.stats.cacheHits + s.stats.cacheMisses = ops.countP Op.isAccess

theorem Access.counted {ops : List Op} {id : String} {s' : LazyWasmLoader μ} {op : Op}
    (h : AccessesCounted ops s) (haccess : Access s id s') (hop : op.isAccess = true) :
    AccessesCounted (ops ++ [op]) s' := by
  have hcount : (ops ++ [op]).countP Op.isAccess = ops.countP Op.isAccess + 1 := by
    rw [List.countP_append, List.countP_singleton, if_pos hop]
  rw [AccessesCounted] at h ⊢
  rw [hcount, ← h]
  cases haccess <;> dsimp only <;> omega

theorem AccessesCounted.step (ops : List Op) (s : LazyWasmLoader μ) (op : Op)
    (s' : LazyWasmLoader μ) (h : AccessesCounted ops s) (hstep : step compile s op = some s') :
    AccessesCounted (ops ++ [op]) s' := by
  have hother (hop : op.isAccess = false) (hhits : s'.stats.cacheHits = s.stats.cacheHits)
      (hmisses : s'.stats.cacheMisses = s.stats.cacheMisses) :
      AccessesCounted (ops ++ [op]) s' := by
    rw [AccessesCounted, hhits, hmisses, List.countP_append, List.countP_singleton, hop]
    exact h
  cases op with
  | register id wasmBytes =>
    cases hstep
    exact hother rfl rfl rfl
  | unregister id =>
    cases hstep
    exact hother rfl rfl rfl
  | getOrCompile id clock =>
    exact some.inj hstep ▸ (access_getOrCompile compile clock s id).counted h rfl
  | preload id clock =>
    exact some.inj hstep ▸ (access_getOrCompile compile clock s id).counted h rfl
  | evict id =>
    cases hstep
    refine hother rfl ?_ ?_ <;> · rw [evict]; split <;> rfl

/-- **The counters of the loader**: hits, misses, and what became of compiled modules. -/
theorem loader_counts (compile : List UInt8 → Except String μ) (maxCached : ℕ) (ops : List Op)
    (s : LazyWasmLoader μ) (hrun : run (step compile) (new maxCached) ops = some s) :
    (∀ id entry, s.cache.lookup id = some entry →
      ∃ wasmBytes, s.registered.lookup id = some wasmBytes) ∧
    s.cache.len ≤ max 1 maxCached ∧
    s.stats.cacheHits + s.stats.cacheMisses = ops.countP Op.isAccess ∧
    s.stats.modulesCompiled = s.cache.len + s.stats.evictions +
      tally (step compile) dropsCached (new maxCached) ops := by
  have hnew : Counted maxCached 0 (new maxCached : LazyWasmLoader μ) :=
    ⟨fun id entry h => by simp [new] at h, rfl, rfl⟩
  have hnone : AccessesCounted [] (new maxCached : LazyWasmLoader μ) := rfl
  have hcounted := run_tally Counted.step ops hnew hrun
  have haccesses : AccessesCounted ops s := run_history AccessesCounted.step ops [] hnone hrun
  refine ⟨hcounted.registered, ?_, haccesses, ?_⟩
  · rw [Nat.max_comm, ← hcounted.cap]
    exact s.cache.length_le
  · rw [hcounted.compiled, Nat.zero_add]

/-- A cache for one module; the third module does not compile. -/
def oneSlot : List Op :=
  [.register "a" [1], .register "b" [2], .getOrCompile "a" ⟨1, 2⟩, .preload "b" ⟨1, 3⟩,
    .getOrCompile "b" ⟨1, 4⟩, .unregister "b", .register "c" [], .getOrCompile "c" ⟨1, 5⟩]

theorem loader_counts_oneSlot :
    ∃ s : LazyWasmLoader (List UInt8), run (step compileBytes) (new 0) oneSlot = some s ∧
      s.stats.cacheHits + s.stats.cacheMisses = 4 ∧
      s.stats.modulesCompiled = s.cache.len + s.stats.evictions +
        tally (step compileBytes) dropsCached (new 0) oneSlot := by
  refine ⟨_, rfl, ?_⟩
  exact (loader_counts compileBytes 0 oneSlot _ rfl).2.2

end LazyLoader

end AlloyAgent
