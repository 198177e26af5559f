import AlloyAgent.PatchFormat
import AlloyAgent.WorkspaceSandbox

/-!
# Applying a patch

`apply_patch` of `openfang-runtime/src/apply_patch.rs` runs the operations of a patch one after the
other against the file system.

* `applyPatch`, on a disk whose calls can fail;
* `applyOp_effect`: what one operation does;
* `accounts_iff`: when the result is a true account of it all.
-/

namespace AlloyAgent.PatchApply

open List UnixPath FileSystem PatchFormat

/-! ## The file system -/

/-- What `apply_patch` asks of the file system. -/
inductive Request where
  | createDirAll (path : UnixPath)
  | readToString (path : UnixPath)
  | write (path : UnixPath) (content : List Char)
  | removeFile (path : UnixPath)
  deriving DecidableEq

def Request.Reply : Request → Type
  | .readToString _ => List Char
  | _ => Unit

def Request.isWrite : Request → Bool
  | .write _ _ => true
  | _ => false

def contents (fs : FileSystem) (loc : Location) : Option (List UInt8) :=
  match fs.node loc with
  | some (.file bytes) => some bytes
  | _ => none

/-- A file system; nothing is known about the files after a write, also if it fails. -/
structure Disk (σ : Type) where
  fs : σ → FileSystem
  view : ∀ s, View (fs s)
  perform : (r : Request) → σ → Except String r.Reply × σ
  createDirAll_contents : ∀ path s,
    contents (fs (perform (.createDirAll path) s).2) = contents (fs s)
  readToString_contents : ∀ path s,
    contents (fs (perform (.readToString path) s).2) = contents (fs s)
  removeFile_contents : ∀ path s e, (perform (.removeFile path) s).1 = .error e →
    contents (fs (perform (.removeFile path) s).2) = contents (fs s)

structure Call (σ : Type) where
  request : Request
  before : σ
  succeeded : Bool
  after : σ

structure Exec (σ : Type) where
  state : σ
  calls : List (Call σ)

/-- The counters are `u32` in the source; here they do not overflow. -/
structure PatchResult where
  filesAdded : ℕ := 0
  filesUpdated : ℕ := 0
  filesDeleted : ℕ := 0
  filesMoved : ℕ := 0
  errors : List String := []
  deriving DecidableEq

def PatchResult.push (result : PatchResult) (e : String) : PatchResult :=
  { result with errors := result.errors ++ [e] }

section Model

variable {σ : Type} (disk : Disk σ) (workspaceRoot : UnixPath)

def Disk.call (r : Request) (x : Exec σ) : Except String r.Reply × Exec σ :=
  let (reply, s) := disk.perform r x.state
  (reply, ⟨s, x.calls ++ [⟨r, x.state, reply.isOk, s⟩]⟩)

/-- Create the directory of a file, if the path has a parent. -/
def Disk.createParent (path : UnixPath) (x : Exec σ) : Except String Unit × Exec σ :=
  match path.parent with
  | some parent => disk.call (.createDirAll parent) x
  | none => (.ok (), x)

/-- Paths are confined to the workspace. -/
def resolvePatchPath (raw : List Char) (x : Exec σ) : Except String UnixPath :=
  WorkspaceSandbox.resolveSandboxPath (disk.fs x.state) (disk.view x.state) (String.ofList raw)
    workspaceRoot

def applyAdd (path content : List Char) (result : PatchResult) (x : Exec σ) :
    PatchResult × Exec σ :=
  match resolvePatchPath disk workspaceRoot path x with
  | .error e => (result.push s!"{String.ofList path}: {e}", x)
  | .ok resolved =>
    match disk.createParent resolved x with
    | (.error e, x) => (result.push s!"mkdir {String.ofList path}: {e}", x)
    | (.ok _, x) =>
      match disk.call (.write resolved content) x with
      | (.error e, x) => (result.push s!"write {String.ofList path}: {e}", x)
      | (.ok _, x) => ({ result with filesAdded := result.filesAdded + 1 }, x)

/-- Write the patched content to the target and, if the file was moved, delete the original. -/
def writeTarget (path : List Char) (moved : Bool) (resolved target : UnixPath)
    (patched : List Char) (result : PatchResult) (x : Exec σ) : PatchResult × Exec σ :=
  -- that the directory cannot be created is ignored
  let x := (disk.createParent target x).2
  match disk.call (.write target patched) x with
  | (.error e, x) => (result.push s!"write {String.ofList path}: {e}", x)
  | (.ok _, x) =>
    ({ result with filesUpdated := result.filesUpdated + 1 },
      if moved && target != resolved then (disk.call (.removeFile resolved) x).2 else x)

def applyUpdate (path : List Char) (moveTo : Option (List Char)) (hunks : List Hunk)
    (result : PatchResult) (x : Exec σ) : PatchResult × Exec σ :=
  match resolvePatchPath disk workspaceRoot path x with
  | .error e => (result.push s!"{String.ofList path}: {e}", x)
  | .ok resolved =>
    match disk.call (.readToString resolved) x with
    | (.error e, x) => (result.push s!"read {String.ofList path}: {e}", x)
    | (.ok original, x) =>
      match PatchHunks.applyHunks original hunks with
      | .error (.notFound e) => (result.push s!"patch {String.ofList path}: {e}", x)
      | .error .outOfRange => (result, x)
      | .ok patched =>
        match moveTo with
        | none => writeTarget disk path false resolved resolved patched result x
        | some newPath =>
          match resolvePatchPath disk workspaceRoot newPath x with
          | .error e => (result.push s!"{String.ofList newPath}: {e}", x)
          | .ok target =>
            writeTarget disk path true resolved target patched
              { result with filesMoved := result.filesMoved + 1 } x

def applyDelete (path : List Char) (result : PatchResult) (x : Exec σ) : PatchResult × Exec σ :=
  match resolvePatchPath disk workspaceRoot path x with
  | .error e => (result.push s!"{String.ofList path}: {e}", x)
  | .ok resolved =>
    match disk.call (.removeFile resolved) x with
    | (.error e, x) => (result.push s!"delete {String.ofList path}: {e}", x)
    | (.ok _, x) => ({ result with filesDeleted := result.filesDeleted + 1 }, x)

def applyOp (op : PatchOp) (result : PatchResult) (x : Exec σ) : PatchResult × Exec σ :=
  match op with
  | .addFile path content => applyAdd disk workspaceRoot path content result x
  | .updateFile path moveTo hunks => applyUpdate disk workspaceRoot path moveTo hunks result x
  | .deleteFile path => applyDelete disk workspaceRoot path result x

/-- What one operation of a run did: requests, states before and after, errors. -/
structure OpRun (σ : Type) where
  op : PatchOp
  before : σ
  calls : List (Call σ)
  after : σ
  errorCount : ℕ

def runOp (op : PatchOp) (result : PatchResult) (s : σ) : PatchResult × OpRun σ :=
  let (result', x) := applyOp disk workspaceRoot op result ⟨s, []⟩
  (result', ⟨op, s, x.calls, x.state, result'.errors.length - result.errors.length⟩)

/-- Apply the operations from a result and a state on, and record the run. -/
def applyFrom : List PatchOp → PatchResult → σ → PatchResult × List (OpRun σ)
  | [], result, _ => (result, [])
  | op :: ops, result, s =>
    let (result', run) := runOp disk workspaceRoot op result s
    let (final, runs) := applyFrom ops result' run.after
    (final, run :: runs)

/-- Apply parsed patch operations against the filesystem. -/
def applyPatch (ops : List PatchOp) (s : σ) : PatchResult :=
  (applyFrom disk workspaceRoot ops {} s).1

def runs (ops : List PatchOp) (s : σ) : List (OpRun σ) := (applyFrom disk workspaceRoot ops {} s).2

end Model

/-! ## What the result should tell -/

def moves : PatchOp → Bool
  | .updateFile _ (some _) _ => true
  | _ => false

section Accounting

variable {σ : Type}

def OpRun.written (run : OpRun σ) : Bool := run.calls.any fun c => c.request.isWrite && c.succeeded

def OpRun.writeFailed (run : OpRun σ) : Bool :=
  run.calls.any fun c => c.request.isWrite && !c.succeeded

structure Accounts (disk : Disk σ) (workspaceRoot : UnixPath) (ops : List PatchOp) (s : σ) :
    Prop where
  total : (applyPatch disk workspaceRoot ops s).filesAdded +
    (applyPatch disk workspaceRoot ops s).filesUpdated +
    (applyPatch disk workspaceRoot ops s).filesDeleted +
    (applyPatch disk workspaceRoot ops s).errors.length = ops.length
  moved : (applyPatch disk workspaceRoot ops s).filesMoved =
    (runs disk workspaceRoot ops s).countP fun run => moves run.op && run.written
  unchanged : ∀ run ∈ runs disk workspaceRoot ops s, run.errorCount ≠ 0 →
    contents (disk.fs run.after) = contents (disk.fs run.before)

/-- Writes that fail are not those of files to be moved, and change no contents. -/
def FailedWritesHarmless (disk : Disk σ) (run : OpRun σ) : Prop :=
  ∀ c ∈ run.calls, c.request.isWrite = true → c.succeeded = false →
    moves run.op = false ∧ contents (disk.fs c.after) = contents (disk.fs c.before)

/-! ## Operations that have not written yet -/

variable {disk : Disk σ} {workspaceRoot : UnixPath} {op : PatchOp} {s : σ} {x : Exec σ}

/-- Since state `s`, nothing was written and the contents of the files are the same. -/
structure Quiet (disk : Disk σ) (s : σ) (x : Exec σ) : Prop where
  contents : contents (disk.fs x.state) = contents (disk.fs s)
  noWrite : ∀ c ∈ x.calls, c.request.isWrite = false

theorem quiet_start (disk : Disk σ) (s : σ) : Quiet disk s ⟨s, []⟩ := ⟨rfl, by simp⟩

section

variable (h : Quiet disk s x)
include h

theorem Quiet.any_write_eq_false (b : Call σ → Bool) :
    (x.calls.any fun c => c.request.isWrite && b c) = false := by
  rw [any_eq_false]
  intro c hc
  simp [h.noWrite c hc]

theorem Quiet.call {r : Request} (hr : r.isWrite = false)
    (hcontents : PatchApply.contents (disk.fs (disk.perform r x.state).2) =
      PatchApply.contents (disk.fs x.state)) : Quiet disk s (disk.call r x).2 := by
  refine ⟨hcontents.trans h.contents, fun c hc => ?_⟩
  rcases mem_append.mp hc with hc | hc
  · exact h.noWrite c hc
  · rw [mem_singleton.mp hc]
    exact hr

theorem Quiet.createParent (path : UnixPath) : Quiet disk s (disk.createParent path x).2 := by
  rw [Disk.createParent]
  cases path.parent with
  | none => exact h
  | some parent => exact h.call rfl (disk.createDirAll_contents parent x.state)

theorem Quiet.readToString (path : UnixPath) : Quiet disk s (disk.call (.readToString path) x).2 :=
  h.call rfl (disk.readToString_contents path x.state)

end

/-! ## The ways in which an operation can end -/

/-- What an operation does to the result and to the file system. -/
inductive Effect (disk : Disk σ) (op : PatchOp) (s : σ) (result : PatchResult) :
    PatchResult → Exec σ → Prop
  /-- An error before anything was written. -/
  | refused (e : String) {x : Exec σ} (h : Quiet disk s x) :
    Effect disk op s result (result.push e) x
  /-- The write failed. A file that was to be moved is counted nevertheless. -/
  | failed (e : String) (path : UnixPath) (content : List Char) {x : Exec σ} (h : Quiet disk s x)
      (after : σ) : Effect disk op s result
        ({ result with filesMoved := result.filesMoved + (moves op).toNat }.push e)
        ⟨after, x.calls ++ [⟨.write path content, x.state, false, after⟩]⟩
  | done {result' : PatchResult} {x : Exec σ}
      (hcount : result'.filesAdded + result'.filesUpdated + result'.filesDeleted =
        result.filesAdded + result.filesUpdated + result.filesDeleted + 1)
      (herrors : result'.errors = result.errors)
      (hmoved : result'.filesMoved = result.filesMoved +
        (moves op && x.calls.any fun c => c.request.isWrite && c.succeeded).toNat)
      (hwrites : ∀ c ∈ x.calls, c.request.isWrite = true → c.succeeded = true) :
      Effect disk op s result result' x

variable {result : PatchResult} {x' : Exec σ}

theorem calls_of_call (h : disk.call r x = (reply, x')) :
    x' = ⟨x'.state, x.calls ++ [⟨r, x.state, reply.isOk, x'.state⟩]⟩ := by
  rw [Disk.call, Prod.mk.injEq] at h
  obtain ⟨rfl, rfl⟩ := h
  rfl

variable {path : UnixPath} {content : List Char}

theorem effect_of_write_error (h : Quiet disk s x)
    (hwrite : disk.call (.write path content) x = (.error e, x')) (message : String) :
    Effect disk op s result
      ({ result with filesMoved := result.filesMoved + (moves op).toNat }.push message) x' := by
  rw [calls_of_call hwrite]
  exact .failed message path content h x'.state

theorem effect_of_write_ok (op : PatchOp) (result result' : PatchResult) (h : Quiet disk s x)
    (hwrite : disk.call (.write path content) x = (.ok u, x')) (later : List (Call σ))
    (hlater : ∀ c ∈ later, c.request.isWrite = false) (after : σ)
    (hcount : result'.filesAdded + result'.filesUpdated + result'.filesDeleted =
      result.filesAdded + result.filesUpdated + result.filesDeleted + 1)
    (herrors : result'.errors = result.errors)
    (hmoved : result'.filesMoved = result.filesMoved + (moves op).toNat) :
    Effect disk op s result result' ⟨after, x'.calls ++ later⟩ := by
  rw [calls_of_call hwrite]
  refine .done hcount herrors ?_ fun c hc hc' => ?_
  · rw [hmoved]
    simp [Request.isWrite, Except.isOk, Except.toBool]
  · simp only [mem_append, mem_singleton] at hc
    rcases hc with (hc | rfl) | hc
    · rw [h.noWrite c hc] at hc'
      cases hc'
    · rfl
    · rw [hlater c hc] at hc'
      cases hc'

theorem applyAdd_effect (path content : List Char) :
    Effect disk (.addFile path content) s result
      (applyAdd disk workspaceRoot path content result ⟨s, []⟩).1
      (applyAdd disk workspaceRoot path content result ⟨s, []⟩).2 := by
  have hstart := quiet_start disk s
  unfold applyAdd
  split
  · exact .refused _ hstart
  · rename_i resolved _
    have hparent := hstart.createParent resolved
    split
    · rename_i e x hx
      rw [hx] at hparent
      exact .refused _ hparent
    · rename_i u x hx
      rw [hx] at hparent
      split
      · rename_i e x' hwrite
        exact effect_of_write_error hparent hwrite _
      · rename_i u x' hwrite
        have hcount : result.filesAdded + 1 + result.filesUpdated + result.filesDeleted =
            result.filesAdded + result.filesUpdated + result.filesDeleted + 1 := by omega
        have heffect := effect_of_write_ok (.addFile path content) result
          { result with filesAdded := result.filesAdded + 1 } hparent hwrite [] (by simp) x'.state
          hcount rfl rfl
        rwa [append_nil] at heffect

theorem writeTarget_effect (op : PatchOp) (h : Quiet disk s x) (path : List Char)
    (resolved target : UnixPath) (patched : List Char) :
    Effect disk op s result
      (writeTarget disk path (moves op) resolved target patched
        { result with filesMoved := result.filesMoved + (moves op).toNat } x).1
      (writeTarget disk path (moves op) resolved target patched
        { result with filesMoved := result.filesMoved + (moves op).toNat } x).2 := by
  have hparent := h.createParent target
  rcases hwrite : disk.call (.write target patched) (disk.createParent target x).2 with ⟨reply, x'⟩
  cases reply with
  | error e =>
    simp only [writeTarget, hwrite]
    exact effect_of_write_error hparent hwrite _
  | ok u =>
    simp only [writeTarget, hwrite]
    have hcount : result.filesAdded + (result.filesUpdated + 1) + result.filesDeleted =
        result.filesAdded + result.filesUpdated + result.filesDeleted + 1 := by omega
    have hdone := effect_of_write_ok op result
      { result with
        filesMoved := result.filesMoved + (moves op).toNat
        filesUpdated := result.filesUpdated + 1 } hparent hwrite
    split
    · -- that the original cannot be deleted is ignored
      exact hdone _ (by simp [Request.isWrite]) _ hcount rfl rfl
    · have hlast := hdone [] (by simp) x'.state hcount rfl rfl
      rwa [append_nil] at hlast

theorem applyUpdate_effect (path : List Char) (moveTo : Option (List Char)) (hunks : List Hunk) :
    Effect disk (.updateFile path moveTo hunks) s result
      (applyUpdate disk workspaceRoot path moveTo hunks result ⟨s, []⟩).1
      (applyUpdate disk workspaceRoot path moveTo hunks result ⟨s, []⟩).2 := by
  have hstart := quiet_start disk s
  unfold applyUpdate
  split
  · exact .refused _ hstart
  · rename_i resolved _
    have hread := hstart.readToString resolved
    split
    · rename_i e x hx
      rw [hx] at hread
      exact .refused _ hread
    · rename_i original x hx
      rw [hx] at hread
      split
      · exact .refused _ hread
      · rename_i hrange
        exact absurd hrange (PatchHunks.applyHunks_ne_outOfRange original hunks)
      · cases moveTo with
        | none =>
          exact writeTarget_effect (.updateFile path none hunks) hread path resolved resolved _
        | some newPath =>
          simp only
          split
          · exact .refused _ hread
          · rename_i target _
            exact writeTarget_effect (.updateFile path (some newPath) hunks) hread path resolved
              target _

theorem applyDelete_effect (path : List Char) :
    Effect disk (.deleteFile path) s result
      (applyDelete disk workspaceRoot path result ⟨s, []⟩).1
      (applyDelete disk workspaceRoot path result ⟨s, []⟩).2 := by
  have hstart := quiet_start disk s
  unfold applyDelete
  split
  · exact .refused _ hstart
  · split
    · rename_i e x hx
      have hremove := hstart.call rfl (disk.removeFile_contents _ s e (congrArg Prod.fst hx))
      rw [hx] at hremove
      exact .refused _ hremove
    · rename_i u x hx
      rw [calls_of_call hx]
      exact .done (by simp; omega) rfl rfl (by simp [Request.isWrite])

/-- **What one operation can do.** -/
theorem applyOp_effect (disk : Disk σ) (workspaceRoot : UnixPath) (op : PatchOp)
    (result : PatchResult) (s : σ) :
    Effect disk op s result (applyOp disk workspaceRoot op result ⟨s, []⟩).1
      (applyOp disk workspaceRoot op result ⟨s, []⟩).2 := by
  cases op with
  | addFile path content => exact applyAdd_effect path content
  | updateFile path moveTo hunks => exact applyUpdate_effect path moveTo hunks
  | deleteFile path => exact applyDelete_effect path

/-! ## The result of an operation -/

variable {result' : PatchResult}

/-- How many operations the result accounts for. -/
def PatchResult.total (result : PatchResult) : ℕ :=
  result.filesAdded + result.filesUpdated + result.filesDeleted + result.errors.length

section

variable (h : Effect disk op s result result' x)
include h

theorem Effect.total : result'.total = result.total + 1 := by
  rw [PatchResult.total, PatchResult.total]
  cases h with
  | refused e h => simp [PatchResult.push]; omega
  | failed e path content h after => simp [PatchResult.push]; omega
  | done hcount herrors hmoved hwrites =>
    rw [herrors]
    omega

theorem Effect.moved :
    result'.filesMoved = result.filesMoved +
      (moves op && x.calls.any fun c => c.request.isWrite && c.succeeded).toNat +
      (moves op && x.calls.any fun c => c.request.isWrite && !c.succeeded).toNat := by
  cases h with
  | refused e h =>
    simp [PatchResult.push, h.any_write_eq_false]
  | failed e path content h after =>
    have hwrite : Request.isWrite (.write path content) = true := rfl
    simp [PatchResult.push, h.any_write_eq_false, hwrite]
  | done hcount herrors hmoved hwrites =>
    have hnone : (x.calls.any fun c => c.request.isWrite && !c.succeeded) = false := by
      rw [any_eq_false]
      intro c hc
      cases hw : c.request.isWrite with
      | false => simp
      | true => simp [hwrites c hc hw]
    simp [hmoved, hnone]

theorem Effect.unchanged_iff :
    (result'.errors.length - result.errors.length ≠ 0 →
      contents (disk.fs x.state) = contents (disk.fs s)) ↔
    ∀ c ∈ x.calls, c.request.isWrite = true → c.succeeded = false →
      contents (disk.fs c.after) = contents (disk.fs c.before) := by
  cases h with
  | refused e h =>
    refine iff_of_true (fun _ => h.contents) fun c hc hc' => ?_
    rw [h.noWrite c hc] at hc'
    cases hc'
  | failed e path content h after =>
    have herror : ({ result with filesMoved := result.filesMoved + (moves op).toNat }.push
        e).errors.length - result.errors.length ≠ 0 := by
      simp [PatchResult.push]
    refine ⟨fun hcontents c hc hc' _ => ?_, fun hcalls _ => ?_⟩
    · rcases mem_append.mp hc with hc | hc
      · rw [h.noWrite c hc] at hc'
        cases hc'
      · rw [mem_singleton.mp hc]
        exact (hcontents herror).trans h.contents.symm
    · exact (hcalls _ (mem_append_right _ (mem_singleton_self _)) rfl rfl).trans
        h.contents
  | done hcount herrors hmoved hwrites =>
    refine iff_of_true (fun hne => absurd ?_ hne) fun c hc hc' hc'' => ?_
    · rw [herrors, Nat.sub_self]
    · rw [hwrites c hc hc'] at hc''
      cases hc''

end

variable (ops : List PatchOp)

theorem applyFrom_cons :
    applyFrom disk workspaceRoot (op :: ops) result s =
      ((applyFrom disk workspaceRoot ops (runOp disk workspaceRoot op result s).1
          (runOp disk workspaceRoot op result s).2.after).1,
        (runOp disk workspaceRoot op result s).2 ::
          (applyFrom disk workspaceRoot ops (runOp disk workspaceRoot op result s).1
            (runOp disk workspaceRoot op result s).2.after).2) := rfl

variable (disk workspaceRoot op result s)

theorem runOp_moved :
    (runOp disk workspaceRoot op result s).1.filesMoved = result.filesMoved +
      (moves (runOp disk workspaceRoot op result s).2.op &&
        (runOp disk workspaceRoot op result s).2.written).toNat +
      (moves (runOp disk workspaceRoot op result s).2.op &&
        (runOp disk workspaceRoot op result s).2.writeFailed).toNat :=
  (applyOp_effect disk workspaceRoot op result s).moved

theorem applyFrom_total :
    (applyFrom disk workspaceRoot ops result s).1.total = result.total + ops.length := by
  induction ops generalizing result s with
  | nil => rfl
  | cons op ops ih =>
    have htotal : (runOp disk workspaceRoot op result s).1.total = result.total + 1 :=
      (applyOp_effect disk workspaceRoot op result s).total
    rw [applyFrom_cons, ih, htotal, length_cons]
    omega

theorem countP_cons_toNat {α : Type} (p : α → Bool) (a : α) (l : List α) :
    (a :: l).countP p = l.countP p + (p a).toNat := by
  rw [countP_cons]
  cases p a <;> rfl

theorem applyFrom_moved :
    (applyFrom disk workspaceRoot ops result s).1.filesMoved = result.filesMoved +
      ((applyFrom disk workspaceRoot ops result s).2.countP fun run =>
        moves run.op && run.written) +
      (applyFrom disk workspaceRoot ops result s).2.countP fun run =>
        moves run.op && run.writeFailed := by
  induction ops generalizing result s with
  | nil => rfl
  | cons op ops ih =>
    rw [applyFrom_cons, ih, runOp_moved, countP_cons_toNat, countP_cons_toNat]
    omega

theorem applyFrom_unchanged_iff :
    ∀ run ∈ (applyFrom disk workspaceRoot ops result s).2,
      ((run.errorCount ≠ 0 → contents (disk.fs run.after) = contents (disk.fs run.before)) ↔
        ∀ c ∈ run.calls, c.request.isWrite = true → c.succeeded = false →
          contents (disk.fs c.after) = contents (disk.fs c.before)) := by
  induction ops generalizing result s with
  | nil => exact fun run hrun => absurd hrun not_mem_nil
  | cons op ops ih =>
    rw [applyFrom_cons, forall_mem_cons]
    exact ⟨(applyOp_effect disk workspaceRoot op result s).unchanged_iff, ih _ _⟩

/-- **When the result tells what has become of the files.** -/
theorem accounts_iff (disk : Disk σ) (workspaceRoot : UnixPath) (ops : List PatchOp) (s : σ) :
    Accounts disk workspaceRoot ops s ↔
      ∀ run ∈ runs disk workspaceRoot ops s, FailedWritesHarmless disk run := by
  have hmoved := applyFrom_moved disk workspaceRoot s {} ops
  have hunchanged := applyFrom_unchanged_iff disk workspaceRoot s {} ops
  refine ⟨fun h run hrun c hc hwrite hfail => ⟨?_, ?_⟩, fun h => ⟨?_, ?_, ?_⟩⟩
  · -- the moves that were counted are those that were written and those that failed
    have hnone : (runs disk workspaceRoot ops s).countP
        (fun run => moves run.op && run.writeFailed) = 0 := by
      have heq := h.moved
      rw [applyPatch, hmoved, ← runs] at heq
      simpa using heq
    have hrun' := countP_eq_zero.mp hnone run hrun
    have hfailed : run.writeFailed = true :=
      any_eq_true.mpr ⟨c, hc, by simp [hwrite, hfail]⟩
    simpa [hfailed] using hrun'
  · exact (hunchanged run hrun).mp (h.unchanged run hrun) c hc hwrite hfail
  · exact (applyFrom_total disk workspaceRoot s {} ops).trans (Nat.zero_add _)
  · have hnone : (runs disk workspaceRoot ops s).countP
        (fun run => moves run.op && run.writeFailed) = 0 := by
      rw [countP_eq_zero]
      intro run hrun hboth
      rw [Bool.and_eq_true] at hboth
      obtain ⟨c, hc, hc'⟩ := any_eq_true.mp hboth.2
      rw [Bool.and_eq_true, Bool.not_eq_true'] at hc'
      rw [(h run hrun c hc hc'.1 hc'.2).1] at hboth
      cases hboth.1
    rw [applyPatch, hmoved, ← runs, hnone]
    simp
  · exact fun run hrun => (hunchanged run hrun).mpr fun c hc hwrite hfail =>
      (h run hrun c hc hwrite hfail).2

end Accounting

/-! ## A disk that is full -/

def oneFile (truncated : Bool) : FileSystem :=
  .ofEntries [([['f']], .file (if truncated then [] else [97]))] (by cases truncated <;> decide)

/-- Reading works, but there is no space to write: `f` is truncated if it is to be written. -/
def fullDisk : Disk Bool where
  fs := oneFile
  view _ := ⟨[], 40, rfl⟩
  perform
    | .createDirAll _, s => (.ok (), s)
    | .readToString _, s => (.ok (if s then [] else ['a']), s)
    | .write path _, s =>
      (.error "No space left on device (os error 28)", s || path == ⟨true, [['f']]⟩)
    | .removeFile _, s => (.error "Read-only file system (os error 30)", s)
  createDirAll_contents _ _ := rfl
  readToString_contents _ _ := rfl
  removeFile_contents _ _ _ _ := rfl

/-- An operation that fails without a write is accounted for. -/
theorem accounts_delete : Accounts fullDisk ⟨true, []⟩ [.deleteFile ['f']] false := by
  have hcalls : (runs fullDisk ⟨true, []⟩ [.deleteFile ['f']] false).all
      (fun run => run.calls.all fun c => !c.request.isWrite) = true := by decide +kernel
  refine (accounts_iff fullDisk ⟨true, []⟩ [.deleteFile ['f']] false).mpr ?_
  intro run hrun c hc hwrite
  have hc' := all_eq_true.mp (all_eq_true.mp hcalls run hrun) c hc
  rw [hwrite] at hc'
  cases hc'

/-- A failed write counts as a move, and a failed update loses the content. -/
theorem failed_write_counted :
    applyPatch fullDisk ⟨true, []⟩ [.updateFile ['f'] (some ['g']) []] false =
      { filesMoved := 1, errors := ["write f: No space left on device (os error 28)"] } ∧
    ¬ Accounts fullDisk ⟨true, []⟩ [.updateFile ['f'] (some ['g']) []] false ∧
    applyPatch fullDisk ⟨true, []⟩ [.updateFile ['f'] none []] false =
      { errors := ["write f: No space left on device (os error 28)"] } ∧
    ∃ run ∈ runs fullDisk ⟨true, []⟩ [.updateFile ['f'] none []] false, run.errorCount = 1 ∧
      contents (oneFile run.before) [['f']] = some [97] ∧
      contents (oneFile run.after) [['f']] = some [] := by
  refine ⟨by decide +kernel, fun h => absurd h.moved (by decide +kernel), by decide +kernel, ?_⟩
  exact ⟨_, mem_singleton_self _, rfl, rfl, rfl⟩

end AlloyAgent.PatchApply
