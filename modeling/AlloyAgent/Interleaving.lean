import AlloyAgent.Transition

/-!
# Calls that interleave

Calls share a state. A call is a value that says what is left to do; it takes one atomic step at a
time, and between two of its steps any other call may take some.

* `step_cases`: a call begins, or one that has begun goes on.
-/

namespace AlloyAgent.Interleaving

universe u v w

variable {σ : Type u} {κ : Type v} {ω : Type w}

structure State (σ : Type u) (κ : Type v) where
  shared : σ
  calls : List κ

/-- A call is made, or the call at a place in the list takes a step. -/
inductive Event (ω : Type w) where
  | invoke (op : ω)
  | step (i : ℕ)
  deriving DecidableEq

/-- `start op` is the call that is made, `advance` one step of it; `none` if it has returned. -/
def step (start : ω → κ) (advance : σ → κ → Option (σ × κ)) (s : State σ κ) :
    Event ω → Option (State σ κ)
  | .invoke op => some { s with calls := s.calls ++ [start op] }
  | .step i =>
    match s.calls[i]? with
    | none => none
    | some call =>
      match advance s.shared call with
      | none => none
      | some (shared, call') => some ⟨shared, s.calls.set i call'⟩

variable {start : ω → κ} {advance : σ → κ → Option (σ × κ)}

theorem step_cases (h : step start advance s e = some s') :
    (∃ op, e = .invoke op ∧ s' = ⟨s.shared, s.calls ++ [start op]⟩) ∨
      ∃ i call shared call', e = .step i ∧ s.calls[i]? = some call ∧
        advance s.shared call = some (shared, call') ∧ s' = ⟨shared, s.calls.set i call'⟩ := by
  cases e with
  | invoke op => exact .inl ⟨op, rfl, (Option.some.inj h).symm⟩
  | step i =>
    simp only [step] at h
    split at h
    · cases h
    · rename_i call hcall
      split at h
      · cases h
      · rename_i shared call' hadvance
        exact .inr ⟨i, call, shared, call', rfl, hcall, hadvance, (Option.some.inj h).symm⟩

end AlloyAgent.Interleaving
