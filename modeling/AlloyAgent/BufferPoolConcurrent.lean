import AlloyAgent.BufferPool
import AlloyAgent.Transition
import Mathlib.Algebra.Order.BigOperators.Group.List
import Mathlib.Algebra.Order.Group.Nat

/-!
# The shared buffer pool under interleaving

Here every map operation and every operation on the counter is a step of its own.

* `stepPool`: the operations of the calls interleave;
* `Balanced`: the counter differs from the sum by what the calls still owe;
* `quiescent_accounted`: when all calls are over they agree, if no buffer was overwritten.
-/

namespace AlloyAgent.BufferPool

open Option Transition

inductive Pc where
  /-- `put`: `buffers.remove(slot)` -/
  | putRemove (req : PutRequest)
  /-- `put`: `fetch_sub` of the length of the removed buffer -/
  | putReclaim (len : ℕ) (req : PutRequest)
  /-- `put`: the first load of the counter -/
  | putLoad (req : PutRequest)
  /-- `evict_until_available`: iterate the map -/
  | evictIter (req : PutRequest)
  /-- `evict_until_available`: load the counter -/
  | evictLoad (req : PutRequest) (entries : List Entry)
  /-- `evict_until_available`: remove the next key; if none is left, the second
  load of `put` -/
  | evictRemove (req : PutRequest) (keys : List String)
  /-- `evict_until_available`: `fetch_sub` of the length of the removed buffer -/
  | evictReclaim (len : ℕ) (req : PutRequest) (keys : List String)
  /-- `put`: `fetch_add` of the new length -/
  | putAdd (req : PutRequest)
  /-- `put`: `buffers.insert` -/
  | putInsert (req : PutRequest)
  /-- `get`: `buffers.get(slot)` -/
  | getRead (slot : String)
  /-- `take`: `buffers.remove(slot)` -/
  | takeRemove (slot : String)
  /-- `take`: `fetch_sub` of the length of the removed buffer -/
  | takeReclaim (buffer : SharedBuffer)
  /-- `clear`: `buffers.clear()` -/
  | clearMap
  /-- `clear`: `store(0)`; the map held `freed` bytes when it was cleared -/
  | clearStore (freed : ℕ)
  | returned (response : Response)
  | panicked

def Call.entry : Call → Pc
  | .put req => .putRemove req
  | .get slot => .getRead slot
  | .take slot => .takeRemove slot
  | .clear => .clearMap

structure Concurrent where
  pool : SharedBufferPool
  calls : List Pc

/-- After a load of the counter in `put`: go on to `yes` if the new data fits, else to `no`. -/
def loadAndCheck (checks : Bool) (p : SharedBufferPool) (req : PutRequest) (yes : Pc)
    (no : ℕ → Pc) : Pc :=
  match Usize.add checks p.currentBytes req.data.length with
  | .ok total => if p.maxTotalBytes < total then no p.currentBytes else yes
  | .error _ => .panicked

def advance (checks : Bool) (env : Env) (p : SharedBufferPool) : Pc → Option (SharedBufferPool × Pc)
  | .putRemove req =>
    match p.buffers.lookup req.slot with
    | some old => some ({ p with buffers := p.buffers.erase req.slot }, .putReclaim old.len req)
    | none => some (p, .putLoad req)
  | .putReclaim len req =>
    some ({ p with currentBytes := Usize.wrapSub p.currentBytes len }, .putLoad req)
  | .putLoad req => some (p, loadAndCheck checks p req (.putAdd req) fun _ => .evictIter req)
  | .evictIter req => some (p, .evictLoad req (oldestFirst env.order p.buffers))
  | .evictLoad req entries =>
    match toRemove checks p.maxTotalBytes req.data.length p.currentBytes 0 entries with
    | .ok keys => some (p, .evictRemove req keys)
    | .error _ => some (p, .panicked)
  | .evictRemove req [] =>
    some (p, loadAndCheck checks p req (.putAdd req) fun current =>
      .returned (.put (.error (.capacityExceeded req.data.length p.maxTotalBytes current))))
  | .evictRemove req (key :: keys) =>
    match p.buffers.lookup key with
    | some old => some ({ p with buffers := p.buffers.erase key }, .evictReclaim old.len req keys)
    | none => some (p, .evictRemove req keys)
  | .evictReclaim len req keys =>
    some ({ p with
      currentBytes := Usize.wrapSub p.currentBytes len
      stats := { p.stats with evictions := p.stats.evictions + 1 } }, .evictRemove req keys)
  | .putAdd req =>
    some ({ p with
      currentBytes := Usize.wrapAdd p.currentBytes req.data.length
      stats := { p.stats with
        allocations := p.stats.allocations + 1
        bytesStoredTotal := p.stats.bytesStoredTotal + req.data.length } }, .putInsert req)
  | .putInsert req =>
    some ({ p with
      buffers := p.buffers.insert req.slot ⟨req.slot, req.data, req.fingerprint, env.now⟩ },
      .returned (.put (.ok ())))
  | .getRead slot => some ((get slot p).2, .returned (.get (get slot p).1))
  | .takeRemove slot =>
    match p.buffers.lookup slot with
    | some buffer => some ({ p with buffers := p.buffers.erase slot }, .takeReclaim buffer)
    | none => some (p, .returned (.take none))
  | .takeReclaim buffer =>
    some ({ p with
      currentBytes := Usize.wrapSub p.currentBytes buffer.len
      stats := { p.stats with takes := p.stats.takes + 1 } }, .returned (.take (some buffer)))
  | .clearMap => some ({ p with buffers := ∅ }, .clearStore (storedBytes p))
  | .clearStore _ => some ({ p with currentBytes := 0 }, .returned .clear)
  | .returned _ => none
  | .panicked => none

inductive PoolEvent where
  | call (c : Call)
  /-- the `i`-th call does its next operation -/
  | advance (i : ℕ) (env : Env)

def stepPool (checks : Bool) (s : Concurrent) : PoolEvent → Option Concurrent
  | .call c => some { s with calls := s.calls ++ [c.entry] }
  | .advance i env =>
    s.calls[i]?.bind fun pc =>
      (advance checks env s.pool pc).map fun r => ⟨r.1, s.calls.set i r.2⟩

/-! ## What a call owes -/

/-- The bytes by which the counter is ahead of the map because of this call. -/
def Pc.owed : Pc → ℕ
  | .putReclaim len _ => len
  | .evictReclaim len _ _ => len
  | .putInsert req => req.data.length
  | .takeReclaim buffer => buffer.len
  | .clearStore freed => freed
  | _ => 0

/-- The bytes that the next operation subtracts from the counter. -/
def Pc.subtracts : Pc → ℕ
  | .putReclaim len _ => len
  | .evictReclaim len _ _ => len
  | .takeReclaim buffer => buffer.len
  | _ => 0

def Pc.ended : Pc → Bool
  | .returned _ | .panicked => true
  | _ => false

def owedBytes (s : Concurrent) : ℕ := (s.calls.map Pc.owed).sum

/-- The counter is what is stored and what is owed. -/
def Balanced (s : Concurrent) : Prop := s.pool.currentBytes = storedBytes s.pool + owedBytes s

/-- The next operation overwrites nothing, and the counter does not overflow. -/
def Pc.Harmless (s : Concurrent) : Pc → Prop
  | .putInsert req => (s.pool.buffers.lookup req.slot).elim 0 SharedBuffer.len = 0
  | .clearStore freed => storedBytes s.pool = 0 ∧ owedBytes s = freed
  | .putAdd req => s.pool.currentBytes + req.data.length < Usize.size
  | _ => True

/-- The event overwrites nothing. -/
def Harmless (s : Concurrent) : PoolEvent → Prop
  | .call _ => True
  | .advance i _ => ∀ pc, s.calls[i]? = some pc → pc.Harmless s

theorem Pc.subtracts_le_owed (pc : Pc) : pc.subtracts ≤ pc.owed := by
  cases pc <;> simp [Pc.subtracts, Pc.owed]

variable {checks : Bool}

variable {p : SharedBufferPool}

theorem owed_loadAndCheck {no : ℕ → Pc} (hyes : yes.owed = 0) (hno : ∀ n, (no n).owed = 0) :
    (loadAndCheck checks p req yes no).owed = 0 := by
  rw [loadAndCheck]
  split
  · split
    · exact hno _
    · exact hyes
  · rfl

variable {s : Concurrent} {pc : Pc}

theorem owed_le {i : ℕ} (h : s.calls[i]? = some pc) : pc.owed ≤ owedBytes s :=
  List.single_le_sum (fun _ _ => Nat.zero_le _) _ (List.mem_map_of_mem (List.mem_of_getElem? h))

variable {p' : SharedBufferPool}

theorem balanced_remove {yes : SharedBuffer → Pc} (hyes : ∀ old, (yes old).owed = old.len)
    (hno : no.owed = 0) (hbal : p.currentBytes = storedBytes p + others)
    (h : (match p.buffers.lookup slot with
      | some old => some ({ p with buffers := p.buffers.erase slot }, yes old)
      | none => some (p, no)) = some (p', pc')) :
    p'.currentBytes = storedBytes p' + others + pc'.owed := by
  cases hold : p.buffers.lookup slot with
  | some old =>
    rw [hold] at h
    cases h
    have htotal : storedBytes p = old.len + Table.total SharedBuffer.len (p.buffers.erase slot) :=
      Table.total_erase hold
    rw [hyes]
    simp only [storedBytes] at hbal htotal ⊢
    omega
  | none =>
    rw [hold] at h
    cases h
    rw [hno]
    exact hbal

/-- One operation keeps the balance of the map, the counter and what the call owes. -/
theorem balanced_advance {env : Env} {pc' : Pc} {others : ℕ}
    (howed : owedBytes s = others + pc.owed)
    (hbal : s.pool.currentBytes = storedBytes s.pool + others + pc.owed) (hharm : pc.Harmless s)
    (h : advance checks env s.pool pc = some (p', pc')) :
    p'.currentBytes = storedBytes p' + others + pc'.owed := by
  -- paying what the call owes
  have hpay : pc.owed ≤ s.pool.currentBytes := by omega
  cases pc with
  | putRemove req => exact balanced_remove (fun _ => rfl) rfl hbal h
  | putReclaim len req | evictReclaim len req keys | takeReclaim buffer =>
    cases h
    simp only [Pc.owed] at hbal hpay ⊢
    rw [Usize.wrapSub_of_le hpay, hbal]
    exact Nat.add_sub_cancel _ _
  | putLoad req =>
    cases h
    rw [owed_loadAndCheck rfl fun _ => rfl]
    exact hbal
  | evictIter req =>
    cases h
    exact hbal
  | evictLoad req entries =>
    simp only [advance] at h
    split at h <;> (cases h; exact hbal)
  | evictRemove req keys =>
    cases keys with
    | nil =>
      cases h
      rw [owed_loadAndCheck rfl fun _ => rfl]
      exact hbal
    | cons key keys => exact balanced_remove (fun _ => rfl) rfl hbal h
  | putAdd req =>
    cases h
    rw [Usize.wrapAdd_of_lt hharm, hbal]
    rfl
  | putInsert req =>
    cases h
    -- the slot held no bytes, so nothing is dropped
    have hslot := Table.total_eq_erase SharedBuffer.len s.pool.buffers req.slot
    rw [hharm, Nat.zero_add] at hslot
    simp only [storedBytes, Pc.owed, Table.total_insert, SharedBuffer.len] at hbal hslot ⊢
    omega
  | getRead slot =>
    cases h
    rw [get]
    split <;> exact hbal
  | takeRemove slot => exact balanced_remove (fun _ => rfl) rfl hbal h
  | clearMap =>
    cases h
    simp only [storedBytes, Pc.owed, Table.total_empty] at hbal ⊢
    omega
  | clearStore freed =>
    cases h
    obtain ⟨hstored, hfreed⟩ := hharm
    simp only [storedBytes, Pc.owed] at hstored howed ⊢
    omega
  | returned response | panicked => cases h

theorem Balanced.step (s : Concurrent) (e : PoolEvent) (s' : Concurrent) (hbal : Balanced s)
    (hharm : Harmless s e) (h : stepPool checks s e = some s') : Balanced s' := by
  cases e with
  | call c =>
    cases h
    have hentry : c.entry.owed = 0 := by cases c <;> rfl
    simpa [Balanced, owedBytes, hentry] using hbal
  | advance i env =>
    obtain ⟨pc, hpc, h⟩ := bind_eq_some_iff.mp h
    obtain ⟨⟨p', pc'⟩, hadv, rfl⟩ := map_eq_some_iff.mp h
    have hle := owed_le hpc
    have hset := sum_map_set Pc.owed hpc pc'
    have hsplit : owedBytes s = (owedBytes s - pc.owed) + pc.owed := by omega
    have hnew := balanced_advance hsplit (by rw [Nat.add_assoc, ← hsplit]; exact hbal)
      (hharm pc hpc) hadv
    simp only [Balanced, owedBytes] at hnew hle hsplit ⊢
    omega

/-- **Accounting under interleaving**, in every run in which no operation overwrites anything. -/
theorem quiescent_accounted (checks : Bool) (maxTotalBytes : ℕ) (es : List PoolEvent)
    (s : Concurrent)
    (hharm : Guarded (stepPool checks) Harmless ⟨new maxTotalBytes, []⟩ es)
    (hrun : run (stepPool checks) ⟨new maxTotalBytes, []⟩ es = some s) :
    (∀ pc ∈ s.calls, pc.subtracts ≤ s.pool.currentBytes) ∧
      ((∀ pc ∈ s.calls, pc.ended = true) → s.pool.currentBytes = storedBytes s.pool) := by
  have hnew : Balanced ⟨new maxTotalBytes, []⟩ := rfl
  have hbal := run_guarded Balanced.step es hnew hharm hrun
  refine ⟨fun pc hpc => ?_, fun hended => ?_⟩
  · obtain ⟨i, hi⟩ := List.getElem?_of_mem hpc
    have hle := (pc.subtracts_le_owed).trans (owed_le hi)
    rw [hbal]
    omega
  · have hzero : owedBytes s = 0 := by
      refine List.sum_eq_zero fun n hn => ?_
      obtain ⟨pc, hpc, rfl⟩ := List.mem_map.mp hn
      have hpc := hended pc hpc
      cases pc <;> simp_all [Pc.ended, Pc.owed]
    rw [hbal, hzero, Nat.add_zero]

def Env.at (now : ℕ) : Env := ⟨.stored _, now⟩

def putAndTake : List PoolEvent :=
  [.call (.put ⟨"a", [1, 2, 3], 0⟩), .call (.take "b"), .advance 0 (.at 1), .advance 0 (.at 2),
    .advance 1 (.at 3), .advance 0 (.at 4), .advance 0 (.at 5)]

theorem harmless_advance (hpc : s.calls[i]? = some pc) (h : pc.Harmless s) :
    Harmless s (.advance i env) :=
  fun _ hpc' => some.inj (hpc.symm.trans hpc') ▸ h

theorem putAndTake_accounted :
    ∃ s, run (stepPool true) ⟨new 10, []⟩ putAndTake = some s ∧ s.pool.currentBytes = 3 ∧
      s.pool.currentBytes = storedBytes s.pool := by
  have hharm : Guarded (stepPool true) Harmless ⟨new 10, []⟩ putAndTake := by
    refine .cons trivial rfl (.cons trivial rfl ?_)
    refine .cons (harmless_advance rfl trivial) rfl (.cons (harmless_advance rfl trivial) rfl ?_)
    refine .cons (harmless_advance rfl trivial) rfl (.cons (harmless_advance rfl ?_) rfl ?_)
    · show 0 + 3 < Usize.size
      decide
    · exact .cons (harmless_advance rfl rfl) rfl trivial
  refine ⟨_, rfl, rfl, (quiescent_accounted true 10 putAndTake _ hharm rfl).2 ?_⟩
  decide

def twoPuts : List PoolEvent :=
  [.call (.put ⟨"a", [1], 0⟩), .call (.put ⟨"a", [2], 0⟩),
    .advance 0 (.at 1), .advance 0 (.at 2), .advance 0 (.at 3),
    .advance 1 (.at 4), .advance 1 (.at 5), .advance 1 (.at 6),
    .advance 0 (.at 7), .advance 1 (.at 8)]

/-- The second insert replaces the first buffer without reclaiming its size. -/
theorem concurrent_puts_leak :
    ∃ s, run (stepPool true) ⟨new 10, []⟩ twoPuts = some s ∧ (∀ pc ∈ s.calls, pc.ended = true) ∧
      s.pool.currentBytes = 2 ∧ storedBytes s.pool = 1 := by
  refine ⟨_, rfl, ?_, rfl, rfl⟩
  decide

end AlloyAgent.BufferPool
