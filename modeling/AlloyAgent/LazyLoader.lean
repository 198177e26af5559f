import AlloyAgent.HashTable
import AlloyAgent.LruCache
import AlloyAgent.Transition

/-!
# The lazy module loader

`LazyWasmLoader` keeps the bytes of registered modules and an LRU cache of compiled ones; a module
is compiled on first access.

* `registerModule`, `getOrCompile`, `evict`: the operations;
* `Coherent`: the cache has what the registered bytes compile to;
* `getOrCompile_latest`: when a module is that of the latest registration.
-/

namespace AlloyAgent.LazyLoader

universe u

open Option Transition

variable {μ : Type u}

/-- The counters are `u64` in the source; here they do not overflow. -/
structure LoaderStats where
  cacheHits : ℕ
  cacheMisses : ℕ
  totalCompileTimeUs : ℕ
  modulesRegistered : ℕ
  modulesCompiled : ℕ
  evictions : ℕ

structure ModuleEntry (μ : Type u) where
  module : μ
  compiledAt : ℕ
  compileTimeUs : ℕ

/-- On-demand WASM module loader with LRU caching. -/
structure LazyWasmLoader (μ : Type u) where
  /-- Raw WASM bytes, keyed by module id. Stored permanently until explicitly removed. -/
  registered : Table String (List UInt8)
  cache : LruCache String (ModuleEntry μ)
  stats : LoaderStats

def new (maxCached : ℕ) : LazyWasmLoader μ :=
  ⟨∅, .new (max maxCached 1) (by omega), ⟨0, 0, 0, 0, 0, 0⟩⟩

/-- What the clock shows during a compilation. -/
structure Clock where
  compileTimeUs : ℕ
  now : ℕ

/-- Register a WASM module's bytes without compiling it. -/
def registerModule (s : LazyWasmLoader μ) (id : String) (wasmBytes : List UInt8) :
    LazyWasmLoader μ :=
  { s with
    registered := s.registered.insert id wasmBytes
    stats := { s.stats with modulesRegistered := s.stats.modulesRegistered + 1 } }

def unregisterModule (s : LazyWasmLoader μ) (id : String) : LazyWasmLoader μ :=
  { s with registered := s.registered.erase id, cache := (s.cache.pop id).2 }

/-- Get a compiled module, compiling on first access (lazy). -/
def getOrCompile (compile : List UInt8 → Except String μ) (clock : Clock) (s : LazyWasmLoader μ)
    (id : String) : Except String μ × LazyWasmLoader μ :=
  match s.cache.get id with
  | (some entry, cache) =>
    (.ok entry.module,
      { s with cache := cache, stats := { s.stats with cacheHits := s.stats.cacheHits + 1 } })
  | (none, cache) =>
    let s := { s with
      cache := cache, stats := { s.stats with cacheMisses := s.stats.cacheMisses + 1 } }
    match s.registered.lookup id with
    | none => (.error ("module '" ++ id ++ "' not registered"), s)
    | some wasmBytes =>
      match compile wasmBytes with
      | .error e => (.error e, s)
      | .ok module =>
        (.ok module,
          { s with
            cache := s.cache.put id ⟨module, clock.now, clock.compileTimeUs⟩
            stats := { s.stats with
              totalCompileTimeUs := s.stats.totalCompileTimeUs + clock.compileTimeUs
              modulesCompiled := s.stats.modulesCompiled + 1
              evictions :=
                if s.cache.len = s.cache.cap then s.stats.evictions + 1 else s.stats.evictions } })

def preload (compile : List UInt8 → Except String μ) (clock : Clock) (s : LazyWasmLoader μ)
    (id : String) : Except String Unit × LazyWasmLoader μ :=
  let r := getOrCompile compile clock s id
  (r.1.map fun _ => (), r.2)

/-- Evict a compiled module from the cache. -/
def evict (s : LazyWasmLoader μ) (id : String) : LazyWasmLoader μ :=
  match s.cache.pop id with
  | (some _, cache) =>
    { s with cache := cache, stats := { s.stats with evictions := s.stats.evictions + 1 } }
  | (none, cache) => { s with cache := cache }

inductive Op where
  | register (id : String) (wasmBytes : List UInt8)
  | unregister (id : String)
  | getOrCompile (id : String) (clock : Clock)
  | preload (id : String) (clock : Clock)
  | evict (id : String)

def step (compile : List UInt8 → Except String μ) (s : LazyWasmLoader μ) :
    Op → Option (LazyWasmLoader μ)
  | .register id wasmBytes => some (registerModule s id wasmBytes)
  | .unregister id => some (unregisterModule s id)
  | .getOrCompile id clock => some (getOrCompile compile clock s id).2
  | .preload id clock => some (preload compile clock s id).2
  | .evict id => some (evict s id)

/-! ## What has been registered -/

def lastRegistered (ops : List Op) (id : String) : Option (List UInt8) :=
  ops.foldl (fun last op =>
    match op with
    | .register id' wasmBytes => if id' = id then some wasmBytes else last
    | .unregister id' => if id' = id then none else last
    | _ => last) none

theorem registered_getOrCompile (compile : List UInt8 → Except String μ) (clock : Clock)
    (s : LazyWasmLoader μ) (id : String) :
    (getOrCompile compile clock s id).2.registered = s.registered := by
  rw [getOrCompile]
  split
  · rfl
  · dsimp only
    split
    · rfl
    · split <;> rfl

/-- The table of bytes has what the operations say. -/
def RegisteredAs (id : String) (ops : List Op) (s : LazyWasmLoader μ) : Prop :=
  s.registered.lookup id = lastRegistered ops id

variable {compile : List UInt8 → Except String μ}

theorem RegisteredAs.step {id : String} (ops : List Op) (s : LazyWasmLoader μ) (op : Op)
    (s' : LazyWasmLoader μ) (hs : RegisteredAs id ops s) (h : step compile s op = some s') :
    RegisteredAs id (ops ++ [op]) s' := by
  rw [RegisteredAs] at hs ⊢
  simp only [lastRegistered, List.foldl_append, List.foldl_cons, List.foldl_nil] at hs ⊢
  cases op with
  | register id' wasmBytes =>
    cases h
    by_cases hid : id' = id
    · subst hid
      simp [registerModule]
    · simp [registerModule, hid, AList.lookup_insert_ne (Ne.symm hid), hs]
  | unregister id' =>
    cases h
    by_cases hid : id' = id
    · subst hid
      simp [unregisterModule]
    · simp [unregisterModule, hid, AList.lookup_erase_ne (Ne.symm hid), hs]
  | getOrCompile id' clock =>
    cases h
    rw [registered_getOrCompile, hs]
  | preload id' clock =>
    cases h
    rw [preload, registered_getOrCompile, hs]
  | evict id' =>
    cases h
    rw [evict]
    split <;> exact hs

/-! ## Coherence of the cache -/

/-- What is cached for an id is the compilation of the bytes registered for it. -/
def Coherent (compile : List UInt8 → Except String μ) (s : LazyWasmLoader μ) : Prop :=
  ∀ id entry, s.cache.lookup id = some entry →
    ∃ wasmBytes, s.registered.lookup id = some wasmBytes ∧ compile wasmBytes = .ok entry.module

/-- A registration of a cached id does not change its module. -/
def KeepsModule (compile : List UInt8 → Except String μ) (s : LazyWasmLoader μ) : Op → Prop
  | .register id wasmBytes =>
    ∀ entry, s.cache.lookup id = some entry → compile wasmBytes = .ok entry.module
  | _ => True

section

variable {compile : List UInt8 → Except String μ} {s : LazyWasmLoader μ}

section

variable (hs : Coherent compile s)
include hs

/-- What `get_or_compile` returns, from a coherent loader. -/
theorem Coherent.getOrCompile (clock : Clock) (id : String) :
    Coherent compile (getOrCompile compile clock s id).2 ∧
      ∀ m, (LazyLoader.getOrCompile compile clock s id).1 = .ok m →
        ∃ wasmBytes, s.registered.lookup id = some wasmBytes ∧ compile wasmBytes = .ok m := by
  have hfst := s.cache.get_fst id
  have hget := s.cache.lookup_get id
  rw [LazyLoader.getOrCompile]
  split
  · -- a hit
    rename_i entry cache hhit
    rw [hhit] at hfst hget
    refine ⟨fun id' entry' h => hs id' entry' ((hget id').symm.trans h), fun m hm => ?_⟩
    obtain rfl : entry.module = m := by simpa using hm
    exact hs id entry hfst.symm
  · rename_i cache hmiss
    rw [hmiss] at hget
    have hs' : ∀ id' entry', cache.lookup id' = some entry' →
        ∃ wasmBytes, s.registered.lookup id' = some wasmBytes ∧
          compile wasmBytes = .ok entry'.module :=
      fun id' entry' h => hs id' entry' ((hget id').symm.trans h)
    dsimp only
    split
    · exact ⟨hs', fun m hm => by simp at hm⟩
    · rename_i wasmBytes hbytes
      split
      · exact ⟨hs', fun m hm => by simp at hm⟩
      · -- the module just compiled is cached
        rename_i m hm
        refine ⟨fun id' entry' h => ?_, fun m' hm' => ?_⟩
        · rcases LruCache.lookup_put h with ⟨rfl, rfl⟩ | ⟨-, hold⟩
          · exact ⟨wasmBytes, hbytes, hm⟩
          · exact hs' id' entry' hold
        · obtain rfl : m = m' := by simpa using hm'
          exact ⟨wasmBytes, hbytes, hm⟩

theorem Coherent.registerModule {id : String} {wasmBytes : List UInt8}
    (hkeep : ∀ entry, s.cache.lookup id = some entry → compile wasmBytes = .ok entry.module) :
    Coherent compile (registerModule s id wasmBytes) := by
  intro id' entry h
  by_cases hid : id' = id
  · subst hid
    exact ⟨wasmBytes, AList.lookup_insert _, hkeep entry h⟩
  · obtain ⟨old, hold, hcompile⟩ := hs id' entry h
    exact ⟨old, (AList.lookup_insert_ne hid).trans hold, hcompile⟩

theorem Coherent.unregisterModule (id : String) : Coherent compile (unregisterModule s id) := by
  intro id' entry h
  obtain ⟨hid, hlookup⟩ := LruCache.lookup_pop h
  obtain ⟨wasmBytes, hbytes, hcompile⟩ := hs id' entry hlookup
  exact ⟨wasmBytes, (AList.lookup_erase_ne hid).trans hbytes, hcompile⟩

theorem Coherent.evict (id : String) : Coherent compile (evict s id) := by
  have hpop : ∀ id' entry, (s.cache.pop id).2.lookup id' = some entry →
      ∃ wasmBytes, s.registered.lookup id' = some wasmBytes ∧
        compile wasmBytes = .ok entry.module :=
    fun id' entry h => hs id' entry (LruCache.lookup_pop h).2
  rw [LazyLoader.evict]
  split <;> · rename_i hpop'; rw [hpop'] at hpop; exact hpop

end

end

theorem Coherent.step (s : LazyWasmLoader μ) (op : Op) (s' : LazyWasmLoader μ)
    (hs : Coherent compile s) (hkeep : KeepsModule compile s op) (h : step compile s op = some s') :
    Coherent compile s' := by
  cases op with
  | register id wasmBytes => exact some.inj h ▸ hs.registerModule hkeep
  | unregister id => exact some.inj h ▸ hs.unregisterModule id
  | getOrCompile id clock => exact some.inj h ▸ (hs.getOrCompile clock id).1
  | preload id clock => exact some.inj h ▸ (hs.getOrCompile clock id).1
  | evict id => exact some.inj h ▸ hs.evict id

/-- **The latest module** is returned, if no registration changes the module of a cached id. -/
theorem getOrCompile_latest (compile : List UInt8 → Except String μ) (maxCached : ℕ)
    (ops : List Op) (s : LazyWasmLoader μ)
    (hkeep : Guarded (step compile) (KeepsModule compile) (new maxCached) ops)
    (hrun : run (step compile) (new maxCached) ops = some s) (clock : Clock) (id : String) (m : μ)
    (hm : (getOrCompile compile clock s id).1 = .ok m) :
    ∃ wasmBytes, lastRegistered ops id = some wasmBytes ∧ compile wasmBytes = .ok m := by
  have hnew : Coherent compile (new maxCached) := fun id entry h => by simp [new] at h
  have hs := run_guarded Coherent.step ops hnew hkeep hrun
  have hnone : RegisteredAs id [] (new maxCached : LazyWasmLoader μ) := rfl
  have hreg : RegisteredAs id ops s := run_history RegisteredAs.step ops [] hnone hrun
  rw [← hreg]
  exact (hs.getOrCompile clock id).2 m hm

/-- A compiler for fixed runs: the module is the bytes, and there must be some. -/
def compileBytes (wasmBytes : List UInt8) : Except String (List UInt8) :=
  if wasmBytes.isEmpty then .error "empty" else .ok wasmBytes

/-- A module that is registered, compiled, and registered anew after an eviction. -/
theorem reregister_after_evict :
    (getOrCompile compileBytes ⟨1, 5⟩
        (registerModule (evict (getOrCompile compileBytes ⟨1, 2⟩
          (registerModule (new 2) "m" [1]) "m").2 "m") "m" [2]) "m").1 = .ok [2] ∧
      ∃ wasmBytes, lastRegistered [.register "m" [1], .getOrCompile "m" ⟨1, 2⟩, .evict "m",
          .register "m" [2]] "m" = some wasmBytes ∧ compileBytes wasmBytes = .ok [2] := by
  refine ⟨rfl, getOrCompile_latest compileBytes 2 _ _ ?_ rfl ⟨1, 5⟩ "m" [2] rfl⟩
  refine .cons (fun _ h => ?_) rfl (.cons trivial rfl (.cons trivial rfl (.cons ?_ rfl trivial)))
  · cases h
  · intro entry h
    cases h

/-- A module is registered anew while its compilation is cached: the old one is returned. -/
theorem stale_module :
    ∃ s : LazyWasmLoader (List UInt8),
      run (step compileBytes) (new 2)
          [.register "m" [1], .getOrCompile "m" ⟨1, 2⟩, .register "m" [2]] = some s ∧
        (getOrCompile compileBytes ⟨1, 5⟩ s "m").1 = .ok [1] ∧
        lastRegistered [.register "m" [1], .getOrCompile "m" ⟨1, 2⟩, .register "m" [2]] "m" =
          some [2] ∧
        compileBytes [2] = .ok [2] :=
  ⟨_, rfl, rfl, rfl, rfl⟩

end AlloyAgent.LazyLoader
