import AlloyAgent.FileSystem

/-!
# The workspace sandbox

`resolve_sandbox_path` decides whether an agent may use a path.

* `Confined`: what is reached through a path lies in the workspace;
* `resolveSandboxPath_confined_iff`: when this is so of all that is allowed.
-/

namespace AlloyAgent.WorkspaceSandbox

open UnixPath FileSystem

def candidate (userPath : String) (workspaceRoot : UnixPath) : UnixPath :=
  workspaceRoot.join (ofText userPath.toList)

/-- Canonicalize the candidate, or its parent for new files. -/
def canonCandidate (fs : FileSystem) (view : View fs) (p : UnixPath) : Except String UnixPath :=
  if fs.pathExists view p then
    match fs.canonicalize view p with
    | .ok canon => .ok canon
    | .error e => .error s!"Failed to resolve path: {e.display}"
  else
    match p.parent with
    | none => .error "Invalid path: no parent directory"
    | some parent =>
      match p.fileName with
      | none => .error "Invalid path: no filename"
      | some filename =>
        match fs.canonicalize view parent with
        | .ok canonParent => .ok (canonParent.join ⟨false, [filename]⟩)
        | .error e => .error s!"Failed to resolve parent directory: {e.display}"

/-- Resolve a path within a workspace sandbox. -/
def resolveSandboxPath (fs : FileSystem) (view : View fs) (userPath : String)
    (workspaceRoot : UnixPath) : Except String UnixPath :=
  if .parentDir ∈ (ofText userPath.toList).components then
    .error "Path traversal denied: '..' components are forbidden"
  else
    match fs.canonicalize view workspaceRoot with
    | .error e => .error s!"Failed to resolve workspace root: {e.display}"
    | .ok canonRoot =>
      match canonCandidate fs view (candidate userPath workspaceRoot) with
      | .error e => .error e
      | .ok canon =>
        if canon.startsWith canonRoot then .ok canon
        else
          .error (s!"Access denied: path '{userPath}' resolves outside workspace. " ++
            "If you have an MCP filesystem server configured, use the " ++
            "mcp_filesystem_* tools (e.g. mcp_filesystem_read_file, " ++
            "mcp_filesystem_list_directory) to access files outside the workspace.")

/-- Opening the path, for reading or for writing, reaches only what lies under the root. -/
def Confined (fs : FileSystem) (view : View fs) (root : Location) (p : UnixPath) : Prop :=
  ∀ create loc, fs.opened view create p = some loc → root <+: loc

/-- The last component of the candidate is a link with this target, in the parent `dir`. -/
structure NewFileIsLink (fs : FileSystem) (view : View fs) (p : UnixPath) (dir : Location)
    (name : Name) (target : List Char) : Prop where
  missing : fs.pathExists view p = false
  parent : ∃ parent, p.parent = some parent ∧ fs.resolve view false parent = .ok dir
  fileName : p.fileName = some name
  link : fs.node (dir ++ [name]) = some (.symlink target)

/-- Where the link leads to a file, or to a place for one, it lies under the root. -/
def LinkConfined (fs : FileSystem) (view : View fs) (root dir : Location)
    (target : List Char) : Prop :=
  ∀ create loc, fs.follow create view.links dir target [] = .ok loc →
    fs.node loc ≠ some .directory → root <+: loc

variable {fs : FileSystem} {view : View fs} {p : UnixPath} {root dir loc : Location} {name : Name}

theorem canonCandidate_eq_ok {q : UnixPath} (h : canonCandidate fs view p = .ok q) :
    (∃ loc, fs.resolve view false p = .ok loc ∧ q = ⟨true, loc⟩) ∨
      ∃ parent dir name, fs.pathExists view p = false ∧ p.parent = some parent ∧
        fs.resolve view false parent = .ok dir ∧ p.fileName = some name ∧
        q = join ⟨true, dir⟩ ⟨false, [name]⟩ := by
  rw [canonCandidate] at h
  split at h
  · split at h
    · rename_i hcanon
      cases h
      exact .inl (canonicalize_eq_ok hcanon)
    · cases h
  · rename_i hmissing
    split at h
    · cases h
    · rename_i parent hparent
      split at h
      · cases h
      · rename_i name hname
        split at h
        · rename_i canon hcanon
          obtain ⟨dir, hdir, rfl⟩ := canonicalize_eq_ok hcanon
          exact .inr ⟨parent, dir, name, by simpa using hmissing, hparent, hdir, hname,
            (Except.ok.inj h).symm⟩
        · cases h

theorem proper_newFile (hdir : fs.NoLink dir) (hname : Proper name) :
    ∀ s ∈ dir ++ [name], Proper s := by
  rw [List.forall_mem_append, List.forall_mem_singleton]
  exact ⟨hdir.proper, hname⟩

theorem opened_newFile (hdir : fs.NoLink dir) (hname : Proper name) {create : Bool}
    (h : fs.opened view create ⟨true, dir ++ [name]⟩ = some loc) :
    loc = dir ++ [name] ∨ ∃ target, fs.node (dir ++ [name]) = some (.symlink target) ∧
      fs.follow create view.links dir target [] = .ok loc ∧ fs.node loc ≠ some .directory := by
  obtain ⟨hres, hnode⟩ := Option.filter_eq_some_iff.mp h
  rw [resolve_append hdir] at hres
  by_cases hisdir : fs.node dir = some .directory
  · rw [walk_name hisdir hname] at hres
    split at hres
    · split_ifs at hres
      · exact .inl (Option.some.inj hres).symm
      · cases hres
    · rename_i target htarget
      cases hfollow : fs.follow create view.links dir target [] with
      | error e => rw [hfollow] at hres; cases hres
      | ok loc' =>
        rw [hfollow] at hres
        cases hres
        exact .inr ⟨target, htarget, hfollow, by simpa using hnode⟩
    · rw [walk_nil] at hres
      exact .inl (Option.some.inj hres).symm
  · rw [walk_of_not_directory hisdir] at hres
    cases hres

theorem opened_link {create : Bool} {target : List Char} (hdir : fs.NoLink dir)
    (hlink : fs.node (dir ++ [name]) = some (.symlink target))
    (hfollow : fs.follow create view.links dir target [] = .ok loc)
    (hnode : fs.node loc ≠ some .directory) :
    fs.opened view create ⟨true, dir ++ [name]⟩ = some loc := by
  obtain ⟨hisdir, hname⟩ := fs.inDirectory dir name (by simp [hlink])
  have hwalk : fs.resolve view create ⟨true, dir ++ [name]⟩ = .ok loc := by
    rw [resolve_append hdir, walk_name hisdir hname, hlink]
    exact hfollow
  simp [opened, hwalk, Except.toOption, hnode]

variable {workspaceRoot : UnixPath}

theorem resolveSandboxPath_eq_ok {userPath : String}
    (h : resolveSandboxPath fs view userPath workspaceRoot = .ok p) :
    .parentDir ∉ (ofText userPath.toList).components ∧
      ∃ root, fs.resolve view false workspaceRoot = .ok root ∧
        canonCandidate fs view (candidate userPath workspaceRoot) = .ok p ∧
        p.startsWith ⟨true, root⟩ = true := by
  rw [resolveSandboxPath] at h
  split at h
  · cases h
  · rename_i hup
    split at h
    · cases h
    · rename_i canonRoot hcanon
      obtain ⟨root, hroot, rfl⟩ := canonicalize_eq_ok hcanon
      split at h
      · cases h
      · rename_i canon hcand
        split at h
        · rename_i hstarts
          cases h
          exact ⟨hup, root, hroot, hcand, hstarts⟩
        · cases h

theorem resolveSandboxPath_newFile {userPath : String} {parent : UnixPath}
    (hup : .parentDir ∉ (ofText userPath.toList).components)
    (hroot : fs.resolve view false workspaceRoot = .ok root)
    (hmissing : fs.pathExists view (candidate userPath workspaceRoot) = false)
    (hparent : (candidate userPath workspaceRoot).parent = some parent)
    (hdir : fs.resolve view false parent = .ok dir)
    (hname : (candidate userPath workspaceRoot).fileName = some name)
    (hunder : root <+: dir ++ [name]) :
    resolveSandboxPath fs view userPath workspaceRoot = .ok ⟨true, dir ++ [name]⟩ := by
  have hcand : canonCandidate fs view (candidate userPath workspaceRoot) =
      .ok ⟨true, dir ++ [name]⟩ := by
    rw [← join_location (noLink_of_resolve hdir)]
    simp [canonCandidate, hmissing, hparent, hname, canonicalize, hdir, Except.map]
  have hproper := proper_newFile (noLink_of_resolve hdir) (proper_of_fileName hname)
  have hstarts := (startsWith_iff hproper (noLink_of_resolve hroot).proper).mpr hunder
  simp [resolveSandboxPath, hup, canonicalize, hroot, hcand, hstarts, Except.map]

/-- **Confinement**, exactly if no link in the place of a new file leads out. -/
theorem resolveSandboxPath_confined_iff (fs : FileSystem) (view : View fs) (userPath : String)
    (workspaceRoot : UnixPath) :
    (∀ p root, resolveSandboxPath fs view userPath workspaceRoot = .ok p →
        fs.resolve view false workspaceRoot = .ok root → Confined fs view root p) ↔
      ∀ root dir name target, .parentDir ∉ (ofText userPath.toList).components →
        fs.resolve view false workspaceRoot = .ok root →
        NewFileIsLink fs view (candidate userPath workspaceRoot) dir name target →
        root <+: dir ++ [name] → LinkConfined fs view root dir target := by
  refine ⟨?_, ?_⟩
  · rintro h root dir name target hup hroot ⟨hmissing, ⟨parent, hparent, hdir⟩, hname, hlink⟩ hunder
      create loc hfollow hnode
    have hok := resolveSandboxPath_newFile hup hroot hmissing hparent hdir hname hunder
    exact h _ root hok hroot create loc (opened_link (noLink_of_resolve hdir) hlink hfollow hnode)
  · intro h p root hok hroot create loc hopen
    obtain ⟨hup, root', hroot', hcand, hstarts⟩ := resolveSandboxPath_eq_ok hok
    obtain rfl : root' = root := Except.ok.inj (hroot'.symm.trans hroot)
    have hrootNames := (noLink_of_resolve hroot).proper
    rcases canonCandidate_eq_ok hcand with
      ⟨loc', hloc', rfl⟩ | ⟨parent, dir, name, hmissing, hparent, hdir, hname, rfl⟩
    · -- the path exists: its canonical form contains no link
      have hnolink := noLink_of_resolve hloc'
      have hunder := (startsWith_iff hnolink.proper hrootNames).mp hstarts
      obtain ⟨hres, -⟩ := Option.filter_eq_some_iff.mp hopen
      rw [resolve_location hnolink] at hres
      exact Option.some.inj hres ▸ hunder
    · -- a new file
      have hnolink := noLink_of_resolve hdir
      have hproper := proper_of_fileName hname
      rw [join_location hnolink] at hstarts hopen
      have hunder := (startsWith_iff (proper_newFile hnolink hproper) hrootNames).mp hstarts
      rcases opened_newFile hnolink hproper hopen with rfl | ⟨target, hlink, hfollow, hnode⟩
      · exact hunder
      · exact h root' dir name target hup hroot
          ⟨hmissing, ⟨parent, hparent, hdir⟩, hname, hlink⟩ hunder create loc hfollow hnode

/-- A workspace `/ws` with two links to `/etc`, one of which points to nothing. -/
def disk : FileSystem :=
  .ofEntries
    [(["ws".toList], .directory),
      (["ws".toList, "out".toList], .symlink "/etc/job".toList),
      (["ws".toList, "key".toList], .symlink "/etc/secret".toList),
      (["etc".toList], .directory),
      (["etc".toList, "secret".toList], .file [42])]
    (by decide)

def process : View disk := ⟨[], 40, rfl⟩

/-- Writing to `out`, and reading from `key/`, leave the workspace. -/
theorem links_escape :
    resolveSandboxPath disk process "out" ⟨true, ["ws".toList]⟩ =
        .ok ⟨true, ["ws".toList, "out".toList]⟩ ∧
      disk.opened process true ⟨true, ["ws".toList, "out".toList]⟩ =
        some ["etc".toList, "job".toList] ∧
      resolveSandboxPath disk process "key/" ⟨true, ["ws".toList]⟩ =
        .ok ⟨true, ["ws".toList, "key".toList]⟩ ∧
      disk.opened process false ⟨true, ["ws".toList, "key".toList]⟩ =
        some ["etc".toList, "secret".toList] ∧
      ¬ ["ws".toList] <+: ["etc".toList, "job".toList] ∧
      ¬ ["ws".toList] <+: ["etc".toList, "secret".toList] := by
  refine ⟨rfl, rfl, rfl, rfl, by decide, by decide⟩

end AlloyAgent.WorkspaceSandbox
