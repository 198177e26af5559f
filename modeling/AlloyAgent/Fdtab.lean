import Mathlib.Order.Bounds.Image
import AlloyAgent.ReadModifyWrite

/-!
# The descriptor table

`fdtab` of AlloyStack leads from the descriptors of a program to handles of the FAT and the socket
service.

* `call`: the calls, with what a service returns; `step`: their runs;
* `Inv`: what was handed out is closed, or belongs to one live descriptor;
* `fdtab_correct`: the whole table.
-/

namespace AlloyAgent.Fdtab

open List Transition ReadModifyWrite

inductive DataSource where
  | fatFs (rawFd : ℕ)
  | net (sockFd : ℕ)
  deriving DecidableEq

/-- The flags `RD` and `WR`. -/
structure OpenMode where
  rd : Bool
  wr : Bool

structure File where
  mode : OpenMode
  src : DataSource

def File.canRead (file : File) : Bool := file.mode.rd

def File.canWrite (file : File) : Bool := file.mode.wr

inductive FdtabError where
  | badInputFd (expected : String) (fd : ℕ)
  | noExistFd (fd : ℕ)
  | noReadPerm (fd : ℕ)
  | noWritePerm (fd : ℕ)
  | fatfsError (e : String)
  | socketError (e : String)
  | undefinedOperation (op : String) (fd : ℕ) (fdType : String)

/-- What a service returns. -/
abbrev Reply := Except String ℕ

def DataSource.result (src : DataSource) (r : Reply) : Except FdtabError ℕ :=
  r.mapError fun e => match src with
    | .fatFs _ => .fatfsError e
    | .net _ => .socketError e

/-- The call of a service, and the handle that it hands out. -/
inductive Service where
  /-- `fatfs_open`, `smol_connect` or `smol_bind` -/
  | start (given : Option DataSource)
  | accept (src : DataSource) (given : Option DataSource)
  | read (src : DataSource)
  | write (src : DataSource)
  | close (src : DataSource)
  | stdout

def Service.given : Service → Option DataSource
  | .start given | .accept _ given => given
  | _ => none

def Service.closed : Service → Option DataSource
  | .close src => some src
  | _ => none

abbrev FdTable := List (Option File)

/-- The new table, the service that was called, and the result; `Ok(())` is `ok 0`. -/
abbrev Outcome := FdTable × Option Service × Except FdtabError ℕ

/-- `fd as usize - 3`; `none` is the underflow. -/
def index (fd : ℕ) : Option ℕ := if 3 ≤ fd then some (fd - 3) else none

def addFile : FdTable → File → FdTable × ℕ
  | [], file => ([some file], 3)
  | none :: t, file => (some file :: t, 3)
  | some f :: t, file => (some f :: (addFile t file).1, (addFile t file).2 + 1)

def withFile (t : FdTable) (fd : ℕ) (f : File → Outcome) : Option Outcome :=
  (index fd).map fun i =>
    match t[i]?.join with
    | none => (t, none, .error (.noExistFd fd))
    | some file => f file

def onFile (t : FdTable) (fd : ℕ) (f : File → Outcome) : Option Outcome :=
  if fd ≤ 2 then some (t, none, .error (.badInputFd ">2" fd)) else withFile t fd f

/-- `open`, `connect` and `bind`. -/
def start (t : FdTable) (mode : OpenMode) (source : ℕ → DataSource) (r : Reply) : Outcome :=
  match r with
  | .error e => (t, some (.start none), (source 0).result (.error e))
  | .ok handle =>
    ((addFile t ⟨mode, source handle⟩).1, some (.start (some (source handle))),
      .ok (addFile t ⟨mode, source handle⟩).2)

def acceptFrom (t : FdTable) (fd : ℕ) (r : Reply) (file : File) : Outcome :=
  match file.src, r with
  | .fatFs _, _ => (t, none, .error (.undefinedOperation "accept" fd "Net"))
  | .net sockFd, .error e => (t, some (.accept (.net sockFd) none), .error (.socketError e))
  | .net sockFd, .ok handle =>
    let added := addFile (t.set (fd - 3) (some ⟨file.mode, .net handle⟩))
      ⟨⟨true, true⟩, .net sockFd⟩
    (added.1, some (.accept (.net sockFd) (some (.net handle))), .ok added.2)

/-- The calls, with what the service returns. -/
inductive Call where
  | openFile (mode : OpenMode) (r : Reply)
  | connect (r : Reply)
  | bind (r : Reply)
  | accept (fd : ℕ) (r : Reply)
  | read (fd : ℕ) (r : Reply)
  | write (fd len : ℕ) (r : Reply)
  | close (fd : ℕ) (r : Reply)

def call (t : FdTable) : Call → Option Outcome
  | .openFile mode r => start t mode .fatFs r
  | .connect r => start t ⟨true, true⟩ .net r
  | .bind r => start t ⟨true, false⟩ .net r
  | .accept fd r => onFile t fd (acceptFrom t fd r)
  | .read fd r => onFile t fd fun file =>
    if file.canRead then (t, some (.read file.src), file.src.result r)
    else (t, none, .error (.noReadPerm fd))
  | .write fd len r =>
    if fd = 0 then some (t, none, .error (.badInputFd ">0" fd))
    else if fd = 1 ∨ fd = 2 then some (t, some .stdout, .ok len)
    else withFile t fd fun file =>
      if file.canWrite then
        (t, some (.write file.src), file.src.result <| match file.src with
          | .fatFs _ => r
          | .net _ => r.map fun _ => len)
      else (t, none, .error (.noWritePerm fd))
  -- `remove_file` empties the slot
  | .close fd r => onFile t fd fun file =>
    (t.set (fd - 3) none, some (.close file.src), (file.src.result r).map fun _ => 0)

/-- The file of a live descriptor. -/
def live (t : FdTable) (fd : ℕ) : Option File := (index fd).bind fun i => t[i]?.join

def free (t : FdTable) : Set ℕ := {fd | 3 ≤ fd ∧ live t fd = none}

/-- What a call may ask of a service. -/
def Allowed (t : FdTable) : Call → Service → Prop
  | .openFile .., .start _ | .connect _, .start _ | .bind _, .start _ => True
  | .accept fd _, .accept src _ | .close fd _, .close src => ∃ file ∈ live t fd, file.src = src
  | .read fd _, .read src => ∃ file ∈ live t fd, file.src = src ∧ file.canRead
  | .write fd _ _, .write src => ∃ file ∈ live t fd, file.src = src ∧ file.canWrite
  | .write fd _ _, .stdout => fd = 1 ∨ fd = 2
  | _, _ => False

/-- The handles of the live descriptors. -/
def owned (t : FdTable) : List DataSource := t.filterMap fun f => f.map File.src

/-- What a call returns if it succeeds, and on which descriptors it does. -/
def Expected (t : FdTable) : Call → ℕ → Prop
  | .openFile .., n | .connect _, n | .bind _, n => IsLeast (free t) n
  | .accept fd _, n => live t fd ≠ none ∧ IsLeast (free t) n
  | .read fd _, _ | .close fd _, _ => live t fd ≠ none
  | .write fd _ _, _ => live t fd ≠ none ∨ fd = 1 ∨ fd = 2

structure Correct (t : FdTable) (c : Call) (o : Outcome) : Prop where
  service : ∀ s ∈ o.2.1, Allowed t c s
  result : ∀ n, o.2.2 = .ok n → Expected t c n
  owned : (o.2.1.bind Service.closed).toList ++ owned o.1 ~
    (o.2.1.bind Service.given).toList ++ owned t

structure State where
  table : FdTable
  /-- the handles that were handed out -/
  given : List DataSource
  /-- the handles that were passed to `close` of a service -/
  closed : List DataSource

def new : State := ⟨[], [], []⟩

/-- A service does not hand out a handle that is still open. -/
def step (s : State) (c : Call) : Option State := do
  let (t, service, _) ← call s.table c
  let given := (service.bind Service.given).toList
  if ∀ src ∈ given, s.given.count src = s.closed.count src then
    some ⟨t, given ++ s.given, (service.bind Service.closed).toList ++ s.closed⟩
  else none

theorem index_eq (h : ¬ fd ≤ 2) : index fd = some (fd - 3) := if_pos (by omega)

theorem live_eq (h : ¬ fd ≤ 2) (t : FdTable) : live t fd = t[fd - 3]?.join := by
  rw [live, index_eq h]
  rfl

theorem free_cons_some (file : File) (t : FdTable) :
    free (some file :: t) = (· + 1) '' free t := by
  ext fd
  constructor
  · rintro ⟨hfd, hlive⟩
    obtain ⟨fd, rfl⟩ := Nat.exists_eq_add_of_le' hfd
    cases fd with
    | zero => cases hlive
    | succ fd => exact ⟨fd + 3, ⟨by omega, by simpa [live, index] using hlive⟩, rfl⟩
  · rintro ⟨fd, ⟨hfd, hlive⟩, rfl⟩
    obtain ⟨fd, rfl⟩ := Nat.exists_eq_add_of_le' hfd
    exact ⟨by simp, by simpa [live, index, Nat.add_right_comm fd 3 1] using hlive⟩

theorem addFile_spec (t : FdTable) (file : File) :
    IsLeast (free t) (addFile t file).2 ∧ owned (addFile t file).1 ~ file.src :: owned t := by
  fun_induction addFile t file with
  | case1 file => exact ⟨⟨⟨le_rfl, rfl⟩, fun _ h => h.1⟩, .refl _⟩
  | case2 t file => exact ⟨⟨⟨le_rfl, rfl⟩, fun _ h => h.1⟩, .refl _⟩
  | case3 f t file ih =>
    refine ⟨?_, (ih.2.cons f.src).trans (.swap _ _ _)⟩
    rw [free_cons_some]
    exact Monotone.map_isLeast (fun _ _ => Nat.succ_le_succ) ih.1

variable {t : FdTable}

theorem owned_set (h : t[i]? = some (some file)) (g : File) :
    owned (t.set i (some g)) ~ g.src :: owned (t.set i none) := by
  have hnone : (t.set i none)[i]? = some none :=
    getElem?_set_self (List.getElem?_eq_some_iff.mp h).1
  have hset := filterMap_set_perm (f := fun f => f.map File.src) hnone rfl (some g)
  rwa [set_set] at hset

theorem owned_eq (h : t[i]? = some (some file)) :
    owned t ~ file.src :: owned (t.set i none) := by
  have hset := owned_set h file
  rwa [set_of_getElem? h] at hset

theorem free_set (h : t[i]? = some (some file)) (g : File) : free (t.set i (some g)) = free t := by
  ext fd
  refine and_congr_right fun hfd => ?_
  rw [live_eq (by omega), live_eq (by omega), getElem?_set]
  grind

theorem correct_error (t : FdTable) (c : Call) (e : FdtabError) : Correct t c (t, none, .error e) :=
  ⟨nofun, nofun, .refl _⟩

theorem correct_service {s : Service} (hs : Allowed t c s) (hr : ∀ n, r = .ok n → Expected t c n)
    (howned : s.closed.toList ++ owned t' ~ s.given.toList ++ owned t) :
    Correct t c (t', some s, r) := by
  refine ⟨fun s' hs' => ?_, hr, howned⟩
  cases hs'
  exact hs

theorem start_correct (c : Call) (hservice : ∀ given, Allowed t c (.start given))
    (hresult : ∀ n, IsLeast (free t) n → Expected t c n) (mode : OpenMode)
    (source : ℕ → DataSource) (r : Reply) : Correct t c (start t mode source r) := by
  cases r with
  | error e => exact correct_service (hservice none) nofun (.refl _)
  | ok handle =>
    obtain ⟨hleast, howned⟩ := addFile_spec t ⟨mode, source handle⟩
    refine correct_service (hservice _) (fun n hn => ?_) howned
    cases hn
    exact hresult _ hleast

theorem slot_of_live (hfd : ¬ fd ≤ 2) (hlive : live t fd = some file) :
    t[fd - 3]? = some (some file) :=
  Option.join_eq_some_iff.mp ((live_eq hfd t).symm.trans hlive)

theorem withFile_correct (hfd : ¬ fd ≤ 2)
    (hf : ∀ file, live t fd = some file → Correct t c (f file)) :
    ∃ o, withFile t fd f = some o ∧ Correct t c o := by
  rw [withFile, index_eq hfd, Option.map_some, ← live_eq hfd]
  refine ⟨_, rfl, ?_⟩
  cases hlive : live t fd with
  | none => exact correct_error ..
  | some file => exact hf file hlive

theorem onFile_correct
    (hf : ∀ file, ¬ fd ≤ 2 → live t fd = some file → Correct t c (f file)) :
    ∃ o, onFile t fd f = some o ∧ Correct t c o := by
  rw [onFile]
  split_ifs with hfd
  · exact ⟨_, rfl, correct_error ..⟩
  · exact withFile_correct hfd fun file => hf file hfd

theorem acceptFrom_correct (hfd : ¬ fd ≤ 2) (hlive : live t fd = some file) (r : Reply) :
    Correct t (.accept fd r) (acceptFrom t fd r file) := by
  have hslot := slot_of_live hfd hlive
  unfold acceptFrom
  split
  · exact correct_error ..
  · rename_i sockFd e hsrc
    exact correct_service ⟨file, hlive, hsrc⟩ nofun (.refl _)
  · rename_i sockFd handle hsrc
    obtain ⟨hleast, howned⟩ := addFile_spec (t.set (fd - 3) (some ⟨file.mode, .net handle⟩))
      ⟨⟨true, true⟩, .net sockFd⟩
    rw [free_set hslot] at hleast
    refine correct_service ⟨file, hlive, hsrc⟩ (fun n hn => ?_) (howned.trans ?_)
    · cases hn
      exact ⟨hlive ▸ Option.some_ne_none _, hleast⟩
    · calc DataSource.net sockFd :: owned (t.set (fd - 3) (some ⟨file.mode, .net handle⟩))
        _ ~ .net sockFd :: .net handle :: owned (t.set (fd - 3) none) :=
          (owned_set hslot _).cons _
        _ ~ .net handle :: file.src :: owned (t.set (fd - 3) none) := hsrc ▸ .swap ..
        _ ~ .net handle :: owned t := (owned_eq hslot).symm.cons _

/-- No call panics, and each is correct in every table. -/
theorem call_correct (t : FdTable) (c : Call) : ∃ o, call t c = some o ∧ Correct t c o := by
  cases c with
  | openFile mode r =>
    exact ⟨_, rfl, start_correct (.openFile mode r) (fun _ => trivial) (fun _ => id) ..⟩
  | connect r => exact ⟨_, rfl, start_correct (.connect r) (fun _ => trivial) (fun _ => id) ..⟩
  | bind r => exact ⟨_, rfl, start_correct (.bind r) (fun _ => trivial) (fun _ => id) ..⟩
  | accept fd r => exact onFile_correct fun file hfd hlive => acceptFrom_correct hfd hlive r
  | read fd r =>
    refine onFile_correct fun file _ hlive => ?_
    split_ifs with hread
    · refine correct_service ⟨file, hlive, rfl, hread⟩ (fun n hn => ?_) (.refl _)
      simp [Expected, hlive]
    · exact correct_error ..
  | write fd len r =>
    rw [call]
    split_ifs with hzero hout
    · exact ⟨_, rfl, correct_error ..⟩
    · exact ⟨_, rfl, correct_service hout (fun n hn => .inr hout) (.refl _)⟩
    · refine withFile_correct (by omega) fun file hlive => ?_
      split_ifs with hwrite
      · refine correct_service ⟨file, hlive, rfl, hwrite⟩ (fun n hn => ?_) (.refl _)
        simp [Expected, hlive]
      · exact correct_error ..
  | close fd r =>
    refine onFile_correct fun file hfd hlive => ?_
    have howned := owned_eq (slot_of_live hfd hlive)
    refine correct_service ⟨file, hlive, rfl⟩ (fun n hn => ?_) howned.symm
    simp [Expected, hlive]

/-- What has been handed out has been closed, or belongs to one live descriptor. -/
structure Inv (s : State) : Prop where
  given : s.given ~ s.closed ++ owned s.table
  nodup : (owned s.table).Nodup

theorem Inv.step (s : State) (c : Call) (s' : State) (h : Inv s) (hstep : step s c = some s') :
    Inv s' := by
  obtain ⟨⟨t, service, result⟩, hcall, -, -, howned⟩ := call_correct s.table c
  rw [Fdtab.step, hcall] at hstep
  simp only [Option.bind_eq_bind, Option.bind_some] at hstep howned
  split_ifs at hstep with hfresh
  cases hstep
  have hgiven : (service.bind Service.given).toList.Nodup := by
    cases service.bind Service.given <;> simp
  generalize (service.bind Service.closed).toList = closed at howned
  generalize (service.bind Service.given).toList = given at *
  constructor
  · calc given ++ s.given
      _ ~ given ++ (s.closed ++ owned s.table) := h.given.append_left _
      _ ~ s.closed ++ (given ++ owned s.table) := perm_append_comm_assoc ..
      _ ~ s.closed ++ (closed ++ owned t) := howned.symm.append_left _
      _ ~ closed ++ (s.closed ++ owned t) := perm_append_comm_assoc ..
      _ ~ closed ++ s.closed ++ owned t := by rw [append_assoc]
  · have hnew : (given ++ owned s.table).Nodup := by
      refine nodup_append.mpr ⟨hgiven, h.nodup, ?_⟩
      rintro src hsrc _ hmem rfl
      have hcount := h.given.count_eq src
      rw [count_append, hfresh src hsrc] at hcount
      exact absurd (count_pos_iff.mpr hmem) (by omega)
    exact (nodup_append.mp (howned.nodup_iff.mpr hnew)).2.1

/-- **The descriptor table**: what was handed out is closed once, or owned by one descriptor. -/
theorem fdtab_correct (cs : List Call) (s : State) (hrun : run step new cs = some s) :
    s.given ~ s.closed ++ owned s.table ∧ (owned s.table).Nodup ∧
      (∀ c, ∃ o, call s.table c = some o ∧ Correct s.table c o) ∧
      ∀ fd file, live s.table fd = some file →
        3 ≤ fd ∧ ∀ r, ∃ result, call s.table (.close fd r) =
          some (s.table.set (fd - 3) none, some (.close file.src), result) := by
  have hnew : Inv new := ⟨.refl _, nodup_nil⟩
  obtain ⟨hgiven, hnodup⟩ := run_invariant Inv.step cs hnew hrun
  refine ⟨hgiven, hnodup, call_correct s.table, fun fd file hlive => ?_⟩
  by_cases hfd : fd ≤ 2
  · rw [live, index, if_neg (by omega)] at hlive
    cases hlive
  · refine ⟨by omega, fun r => ⟨(file.src.result r).map fun _ => 0, ?_⟩⟩
    rw [call, onFile, if_neg hfd, withFile, index_eq hfd, Option.map_some, ← live_eq hfd, hlive]

/-- A listener, whose handle 7 goes to the new descriptor. -/
def accepting : List Call := [.bind (.ok 7), .accept 3 (.ok 8), .close 4 (.ok 0)]

theorem accepting_correct : ∃ s, run step new accepting = some s ∧ s.closed = [.net 7] ∧
    s.given ~ s.closed ++ owned s.table :=
  ⟨_, rfl, rfl, (fdtab_correct accepting _ rfl).1⟩

/-- The descriptor 1 is not live, but a write to it succeeds. -/
theorem write_stdout :
    live [] 1 = none ∧ call [] (.write 1 5 (.ok 5)) = some ([], some .stdout, .ok 5) :=
  ⟨rfl, rfl⟩

end AlloyAgent.Fdtab
