import AlloyAgent.Transition

/-!
# Calls that read, compute and write back

Several calls share one cell. Each of them reads the whole cell in one step, computes a new value
from what it has read, and writes the whole cell in a later step; between the two the other calls
may do the same.

* `serial_run`: if every call writes over what it has read, none is lost.
-/

namespace AlloyAgent.ReadModifyWrite

universe u v

open List

open Transition

variable {σ : Type u} {κ : Type v}

inductive Pc (σ : Type u) where
  | ready
  | loaded (value : σ)
  | returned
  | failed
  deriving DecidableEq

structure Call (σ : Type u) (κ : Type v) where
  op : κ
  pc : Pc σ
  deriving DecidableEq

/-- The cell, the calls, and the operations that have been written, in order. -/
structure State (σ : Type u) (κ : Type v) where
  cell : σ
  calls : List (Call σ κ)
  log : List κ

def State.start (cell : σ) (ops : List κ) : State σ κ :=
  ⟨cell, ops.map fun op => ⟨op, .ready⟩, []⟩

inductive Event where
  | load (i : ℕ)
  | save (i : ℕ)
  | fail (i : ℕ)
  deriving DecidableEq

def State.setPc (s : State σ κ) (i : ℕ) (call : Call σ κ) (pc : Pc σ) : State σ κ :=
  { s with calls := s.calls.set i { call with pc := pc } }

/-- One step. `update op value` is what the call writes, `none` if it breaks off instead. -/
def step (update : κ → σ → Option σ) (s : State σ κ) : Event → Option (State σ κ)
  | .load i =>
    match s.calls[i]? with
    | some ⟨op, .ready⟩ => some (s.setPc i ⟨op, .ready⟩ (.loaded s.cell))
    | _ => none
  | .save i =>
    match s.calls[i]? with
    | some ⟨op, .loaded value⟩ =>
      match update op value with
      | none => some (s.setPc i ⟨op, .loaded value⟩ .failed)
      | some cell =>
        some { s.setPc i ⟨op, .loaded value⟩ .returned with cell := cell, log := s.log ++ [op] }
    | _ => none
  | .fail i =>
    match s.calls[i]? with
    | some ⟨op, .ready⟩ => some (s.setPc i ⟨op, .ready⟩ .failed)
    | some ⟨op, .loaded value⟩ => some (s.setPc i ⟨op, .loaded value⟩ .failed)
    | _ => none

/-- A call writes only over the value that it has read. -/
def Fresh (s : State σ κ) : Event → Prop
  | .save i => ∀ op value, s.calls[i]? = some ⟨op, .loaded value⟩ → value = s.cell
  | _ => True

def done? (call : Call σ κ) : Option κ :=
  match call.pc with
  | .returned => some call.op
  | _ => none

variable {update : κ → σ → Option σ} {s s' : State σ κ}

/-- What a step does: a call that has not returned moves on without writing, or it writes. -/
theorem step_cases {e : Event} (h : step update s e = some s') :
    (∃ (i : ℕ) (call : Call σ κ) (pc : Pc σ), s.calls[i]? = some call ∧ call.pc ≠ .returned ∧
        pc ≠ .returned ∧ s' = s.setPc i call pc) ∨
      ∃ (i : ℕ) (op : κ) (value cell : σ), e = .save i ∧
        s.calls[i]? = some ⟨op, .loaded value⟩ ∧ update op value = some cell ∧
        s' =
          { s.setPc i ⟨op, .loaded value⟩ .returned with cell := cell, log := s.log ++ [op] } := by
  cases e with
  | load i =>
    simp only [step] at h
    split at h
    · rename_i op hcall
      cases h
      exact .inl ⟨i, _, _, hcall, by simp, by simp, rfl⟩
    · cases h
  | save i =>
    simp only [step] at h
    split at h
    · rename_i op value hcall
      split at h
      · cases h
        exact .inl ⟨i, _, _, hcall, by simp, by simp, rfl⟩
      · rename_i cell hcell
        cases h
        exact .inr ⟨i, op, value, cell, rfl, hcall, hcell, rfl⟩
    · cases h
  | fail i =>
    simp only [step] at h
    split at h
    · rename_i op hcall
      cases h
      exact .inl ⟨i, _, _, hcall, by simp, by simp, rfl⟩
    · rename_i op value hcall
      cases h
      exact .inl ⟨i, _, _, hcall, by simp, by simp, rfl⟩
    · cases h

theorem filterMap_set_perm {α : Type u} {β : Type v} {f : α → Option β} {l : List α} {i : ℕ}
    {a : α} (h : l[i]? = some a) (ha : f a = none) (b : α) :
    ((l.set i b).filterMap f).Perm ((f b).toList ++ l.filterMap f) := by
  induction l generalizing i with
  | nil => simp at h
  | cons c l ih =>
    cases i with
    | zero =>
      obtain rfl : c = a := by simpa using h
      rw [set_cons_zero, filterMap_cons_none ha]
      cases hb : f b with
      | none => rw [filterMap_cons_none hb]; rfl
      | some x => rw [filterMap_cons_some hb]; rfl
    | succ i =>
      have hrest := ih (by simpa using h)
      rw [set_cons_succ]
      cases hc : f c with
      | none => rwa [filterMap_cons_none hc, filterMap_cons_none hc]
      | some x =>
        rw [filterMap_cons_some hc, filterMap_cons_some hc]
        exact (hrest.cons x).trans perm_middle.symm

/-- The calls that have returned have taken effect one after another. -/
structure Serial (update : κ → σ → Option σ) (cell : σ) (s : State σ κ) : Prop where
  /-- in the order of the log -/
  value : s.log.foldlM (fun value op => update op value) cell = some s.cell
  /-- and each of them once -/
  once : s.log.Perm (s.calls.filterMap done?)

theorem serial_start (cell : σ) (ops : List κ) : Serial update cell (State.start cell ops) where
  value := rfl
  once := by
    have hnone : (ops.map fun op => (⟨op, .ready⟩ : Call σ κ)).filterMap done? = [] := by
      rw [filterMap_map]
      exact filterMap_eq_nil_iff.mpr fun _ _ => rfl
    rw [State.start, hnone]

theorem done?_eq_none {call : Call σ κ} (h : call.pc ≠ .returned) : done? call = none := by
  obtain ⟨op, pc⟩ := call
  cases pc with
  | returned => exact absurd rfl h
  | ready | loaded _ | failed => rfl

variable {cell : σ}

theorem Serial.step (s : State σ κ) (e : Event) (s' : State σ κ) (h : Serial update cell s)
    (hfresh : Fresh s e) (hstep : ReadModifyWrite.step update s e = some s') :
    Serial update cell s' := by
  rcases step_cases hstep with ⟨i, call, pc, hcall, hpc, hpc', rfl⟩ |
    ⟨i, op, value, cell', rfl, hcall, hupdate, rfl⟩
  · refine ⟨h.value, h.once.trans ?_⟩
    have hperm := filterMap_set_perm hcall (done?_eq_none hpc) ⟨call.op, pc⟩
    rw [done?_eq_none hpc'] at hperm
    exact hperm.symm
  · obtain rfl := hfresh op value hcall
    refine ⟨?_, ?_⟩
    · rw [foldlM_append, h.value]
      simp [hupdate]
    · have hperm := filterMap_set_perm hcall (done?_eq_none (by simp)) ⟨op, .returned⟩
      exact (perm_append_singleton op s.log).trans ((h.once.cons op).trans hperm.symm)

/-- **No update is lost or made twice** if every call writes over the value that it has read. -/
theorem serial_run (hfresh : Guarded (step update) Fresh (State.start cell ops) es)
    (hrun : run (step update) (State.start cell ops) es = some s) : Serial update cell s :=
  run_guarded Serial.step es (serial_start cell ops) hfresh hrun

theorem Serial.mem_log (h : Serial update cell s) (hcall : call ∈ s.calls)
    (hpc : call.pc = .returned) : call.op ∈ s.log := by
  rw [h.once.mem_iff, mem_filterMap]
  refine ⟨call, hcall, ?_⟩
  rw [done?, hpc]

end AlloyAgent.ReadModifyWrite
