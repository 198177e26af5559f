import AlloyAgent.Capability
import AlloyAgent.FileSystem

/-!
# File access of WASM guests

A guest reads, lists and writes files through the host. The host checks the capabilities of the
guest on the text of the path, and then resolves the path: for reading and listing the whole path,
for writing its parent, to which the file name is appended.

`listing` is what the system lists for a directory, any function.

* `accessed_eq_some`: what a call reaches if it gets past the checks;
* `guests_confined_iff`: for which paths this is what the capabilities allow.
-/

namespace AlloyAgent.HostFunctions

open UnixPath FileSystem

inductive HostError where
  | capabilityDenied (required : Capability)
  | message (text : String)
  deriving DecidableEq

/-- Check that the guest has a capability matching `required`. -/
def checkCapability (capabilities : List Capability) (required : Capability) :
    Except HostError Unit :=
  if capabilities.any fun granted => capabilityMatches granted required then .ok ()
  else .error (.capabilityDenied required)

variable (fs : FileSystem) (view : View fs) (listing : Location → List String)
  (capabilities : List Capability)

/-- Secure path resolution: rejects traversal components, resolves symlinks. -/
def safeResolvePath (path : String) : Except HostError UnixPath :=
  let p := ofText path.toList
  if .parentDir ∈ p.components then
    .error (.message "Path traversal denied: '..' components forbidden")
  else
    match fs.canonicalize view p with
    | .ok canonical => .ok canonical
    | .error e => .error (.message s!"Cannot resolve path: {e.display}")

def safeResolveParent (path : String) : Except HostError UnixPath :=
  let p := ofText path.toList
  if .parentDir ∈ p.components then
    .error (.message "Path traversal denied: '..' components forbidden")
  else
    match p.parent.filter fun parent => !parent.isEmpty with
    | none => .error (.message "Invalid path: no parent directory")
    | some parent =>
      match fs.canonicalize view parent with
      | .error e => .error (.message s!"Cannot resolve parent directory: {e.display}")
      | .ok canonicalParent =>
        match p.fileName with
        | none => .error (.message "Invalid path: no file name")
        | some fileName =>
          if RustStr.contains fileName dotDot then
            .error (.message "Path traversal denied in file name")
          else .ok (canonicalParent.join ⟨false, [fileName]⟩)

/-! ## The file system -/

def readToString (p : UnixPath) : Except String (Location × String) :=
  match fs.resolve view false p with
  | .error e => .error e.display
  | .ok loc =>
    match fs.node loc with
    | some (.file contents) =>
      match String.fromUTF8? ⟨contents.toArray⟩ with
      | some text => .ok (loc, text)
      | none => .error "stream did not contain valid UTF-8"
    | some .directory => .error "Is a directory (os error 21)"
    | _ => .error Errno.notFound.display

def readDir (p : UnixPath) : Except String (Location × List String) :=
  match fs.resolve view false p with
  | .error e => .error e.display
  | .ok loc =>
    if fs.node loc = some .directory then .ok (loc, listing loc)
    else .error Errno.notDirectory.display

/-- `write`: the location that is written, which is created if nothing is there. -/
def writeFile (p : UnixPath) : Except String Location :=
  match fs.resolve view true p with
  | .error e => .error e.display
  | .ok loc =>
    if fs.node loc = some .directory then .error "Is a directory (os error 21)" else .ok loc

/-! ## The host functions -/

def checkedCall {α : Type} (required : Capability) (resolved : Except HostError UnixPath)
    (act : UnixPath → Except String α) (failed : String) : Except HostError α :=
  match checkCapability capabilities required with
  | .error e => .error e
  | .ok () =>
    match resolved with
    | .error e => .error e
    | .ok p =>
      match act p with
      | .ok value => .ok value
      | .error e => .error (.message s!"{failed}: {e}")

def hostFsRead : Option String → Except HostError (Location × String)
  | none => .error (.message "Missing 'path' parameter")
  | some path =>
    checkedCall capabilities (.fileRead path) (safeResolvePath fs view path)
      (readToString fs view) "fs_read failed"

/-- `fs_write`, with the location and what has been written to it. -/
def hostFsWrite : Option String → Option String → Except HostError (Location × String)
  | none, _ => .error (.message "Missing 'path' parameter")
  | some _, none => .error (.message "Missing 'content' parameter")
  | some path, some content =>
    checkedCall capabilities (.fileWrite path) (safeResolveParent fs view path)
      (fun writePath => (writeFile fs view writePath).map fun loc => (loc, content))
      "fs_write failed"

def hostFsList : Option String → Except HostError (Location × List String)
  | none => .error (.message "Missing 'path' parameter")
  | some path =>
    checkedCall capabilities (.fileRead path) (safeResolvePath fs view path)
      (readDir fs view listing) "fs_list failed"

inductive FsCall where
  | read
  | list
  | write (content : String)

def FsCall.required : FsCall → String → Capability
  | .read => .fileRead
  | .list => .fileRead
  | .write _ => .fileWrite

def accessed (path : String) : FsCall → Option Location
  | .read => (hostFsRead fs view capabilities (some path)).toOption.map Prod.fst
  | .list => (hostFsList fs view listing capabilities (some path)).toOption.map Prod.fst
  | .write content =>
    (hostFsWrite fs view capabilities (some path) (some content)).toOption.map Prod.fst

def pathText (loc : Location) : String :=
  String.ofList (if loc = [] then ['/'] else loc.flatMap fun name => '/' :: name)

/-- What a call accesses is granted to the guest. -/
def Confined (path : String) (call : FsCall) : Prop :=
  ∀ loc, accessed fs view listing capabilities path call = some loc →
    ∃ granted ∈ capabilities, capabilityMatches granted (call.required (pathText loc)) = true

/-! ## Where paths lead -/

/-- A path without `..` that resolves to a location. -/
def LeadsTo (path : String) (loc : Location) : Prop :=
  .parentDir ∉ (ofText path.toList).components ∧
    fs.resolve view false (ofText path.toList) = .ok loc

/-- The parent of a path resolves to a directory, in which the file name leads to a location. -/
def LeadsToNew (path : String) (loc : Location) : Prop :=
  .parentDir ∉ (ofText path.toList).components ∧
    ∃ parent dir name, (ofText path.toList).parent = some parent ∧ parent.isEmpty = false ∧
      fs.resolve view false parent = .ok dir ∧ (ofText path.toList).fileName = some name ∧
      RustStr.contains name dotDot = false ∧ fs.walk true view.links dir [name] = .ok loc

/-- A text file to read, a directory to list, or a place for a file to write. -/
def Leads (path : String) (loc : Location) : FsCall → Prop
  | .read => LeadsTo fs view path loc ∧
      ∃ contents text, fs.node loc = some (.file contents) ∧
        String.fromUTF8? ⟨contents.toArray⟩ = some text
  | .list => LeadsTo fs view path loc ∧ fs.node loc = some .directory
  | .write _ => LeadsToNew fs view path loc ∧ fs.node loc ≠ some .directory

variable {fs view listing capabilities} {path : String} {loc : Location}

variable {required : Capability}

theorem checkCapability_eq_ok :
    checkCapability capabilities required = .ok () ↔
      ∃ granted ∈ capabilities, capabilityMatches granted required = true := by
  rw [checkCapability, ← List.any_eq_true]
  split
  · rename_i h
    exact iff_of_true rfl h
  · rename_i h
    exact iff_of_false (fun h => by cases h) h

theorem safeResolvePath_eq_ok :
    safeResolvePath fs view path = .ok q ↔ ∃ loc, LeadsTo fs view path loc ∧ q = ⟨true, loc⟩ := by
  simp only [safeResolvePath, LeadsTo]
  split
  · rename_i hup
    refine iff_of_false (fun h => by cases h) ?_
    rintro ⟨loc, ⟨hdown, -⟩, -⟩
    exact hdown hup
  · rename_i hup
    refine ⟨fun h => ?_, ?_⟩
    · split at h
      · rename_i canonical hcanonical
        cases h
        obtain ⟨loc, hloc, rfl⟩ := canonicalize_eq_ok hcanonical
        exact ⟨loc, ⟨hup, hloc⟩, rfl⟩
      · cases h
    · rintro ⟨loc, ⟨-, hloc⟩, rfl⟩
      simp only [canonicalize, hloc, Except.map]

theorem safeResolveParent_eq_ok :
    safeResolveParent fs view path = .ok q ↔
      .parentDir ∉ (ofText path.toList).components ∧
        ∃ parent dir name, (ofText path.toList).parent = some parent ∧ parent.isEmpty = false ∧
          fs.resolve view false parent = .ok dir ∧ (ofText path.toList).fileName = some name ∧
          RustStr.contains name dotDot = false ∧ q = ⟨true, dir ++ [name]⟩ := by
  simp only [safeResolveParent]
  split
  · rename_i hup
    exact iff_of_false (fun h => by cases h) fun h => h.1 hup
  · rename_i hup
    rw [and_iff_right hup]
    refine ⟨fun h => ?_, ?_⟩
    · split at h
      · cases h
      · rename_i parent hparent
        obtain ⟨hparent, hempty⟩ := Option.filter_eq_some_iff.mp hparent
        split at h
        · cases h
        · rename_i canonical hcanonical
          obtain ⟨dir, hdir, rfl⟩ := canonicalize_eq_ok hcanonical
          split at h
          · cases h
          · rename_i name hname
            split at h
            · cases h
            · rename_i hdots
              rw [join_location (noLink_of_resolve hdir)] at h
              exact ⟨parent, dir, name, hparent, by simpa using hempty, hdir, hname,
                by simpa using hdots, (Except.ok.inj h).symm⟩
    · rintro ⟨parent, dir, name, hparent, hempty, hdir, hname, hdots, rfl⟩
      simp [hparent, hempty, canonicalize, hdir, hname, hdots, Except.map, Option.filter,
        join_location (noLink_of_resolve hdir)]

/-! ## What a call accesses -/

/-- A call succeeds at a location if it is granted and its path is resolved to it. -/
theorem checkedCall_eq_some {α : Type} {act : UnixPath → Except String (Location × α)} :
    (checkedCall capabilities required resolved act failed).toOption.map Prod.fst = some loc ↔
      (∃ granted ∈ capabilities, capabilityMatches granted required = true) ∧
        ∃ p value, resolved = .ok p ∧ act p = .ok (loc, value) := by
  simp only [← checkCapability_eq_ok, checkedCall]
  cases checkCapability capabilities required with
  | error e => simp [Except.toOption]
  | ok granted =>
    cases resolved with
    | error e => simp [Except.toOption]
    | ok p =>
      rcases hact : act p with e | ⟨loc', value⟩
      · simp [Except.toOption, hact]
      · simp [Except.toOption, hact]

theorem readToString_location (hloc : fs.NoLink loc) :
    readToString fs view ⟨true, loc⟩ = .ok (loc', text) ↔
      loc' = loc ∧ ∃ contents, fs.node loc = some (.file contents) ∧
        String.fromUTF8? ⟨contents.toArray⟩ = some text := by
  rw [readToString, resolve_location hloc]
  dsimp only
  split
  · rename_i contents hnode
    split
    · rename_i text' htext
      simp [hnode, htext, eq_comm]
    · rename_i htext
      simp [hnode, htext]
  · simp_all
  · simp_all

theorem readDir_location (hloc : fs.NoLink loc) :
    readDir fs view listing ⟨true, loc⟩ = .ok (loc', names) ↔
      loc' = loc ∧ names = listing loc ∧ fs.node loc = some .directory := by
  rw [readDir, resolve_location hloc]
  dsimp only
  split
  · rename_i hnode
    simp [hnode, eq_comm]
  · rename_i hnode
    simp [hnode]

theorem writeFile_newFile (hdir : fs.NoLink dir) :
    writeFile fs view ⟨true, dir ++ [name]⟩ = .ok loc ↔
      fs.walk true view.links dir [name] = .ok loc ∧ fs.node loc ≠ some .directory := by
  rw [writeFile, resolve_append hdir]
  cases fs.walk true view.links dir [name] with
  | error e => simp
  | ok loc' =>
    dsimp only
    split
    · rename_i hnode
      refine iff_of_false (fun h => by cases h) ?_
      rintro ⟨⟨⟩, hne⟩
      exact hne hnode
    · rename_i hnode
      refine ⟨?_, ?_⟩
      · rintro ⟨⟩
        exact ⟨rfl, hnode⟩
      · rintro ⟨⟨⟩, -⟩
        rfl

theorem leads_read :
    (∃ p value, safeResolvePath fs view path = .ok p ∧
        readToString fs view p = .ok (loc, value)) ↔ Leads fs view path loc .read := by
  refine ⟨?_, ?_⟩
  · rintro ⟨p, text, hp, hread⟩
    obtain ⟨loc', hleads, rfl⟩ := safeResolvePath_eq_ok.mp hp
    obtain ⟨rfl, contents, hnode, htext⟩ :=
      (readToString_location (noLink_of_resolve hleads.2)).mp hread
    exact ⟨hleads, contents, text, hnode, htext⟩
  · rintro ⟨hleads, contents, text, hnode, htext⟩
    exact ⟨_, text, safeResolvePath_eq_ok.mpr ⟨loc, hleads, rfl⟩,
      (readToString_location (noLink_of_resolve hleads.2)).mpr ⟨rfl, contents, hnode, htext⟩⟩

theorem leads_list :
    (∃ p value, safeResolvePath fs view path = .ok p ∧
        readDir fs view listing p = .ok (loc, value)) ↔ Leads fs view path loc .list := by
  refine ⟨?_, ?_⟩
  · rintro ⟨p, names, hp, hread⟩
    obtain ⟨loc', hleads, rfl⟩ := safeResolvePath_eq_ok.mp hp
    obtain ⟨rfl, -, hnode⟩ := (readDir_location (noLink_of_resolve hleads.2)).mp hread
    exact ⟨hleads, hnode⟩
  · rintro ⟨hleads, hnode⟩
    exact ⟨_, listing loc, safeResolvePath_eq_ok.mpr ⟨loc, hleads, rfl⟩,
      (readDir_location (noLink_of_resolve hleads.2)).mpr ⟨rfl, rfl, hnode⟩⟩

theorem leads_write :
    (∃ p value, safeResolveParent fs view path = .ok p ∧
        ((writeFile fs view p).map fun loc => (loc, content)) = .ok (loc, value)) ↔
      Leads fs view path loc (.write content) := by
  refine ⟨?_, ?_⟩
  · rintro ⟨p, value, hp, hwrite⟩
    obtain ⟨hup, parent, dir, name, hparent, hempty, hdir, hname, hdots, rfl⟩ :=
      safeResolveParent_eq_ok.mp hp
    have hwritten : writeFile fs view ⟨true, dir ++ [name]⟩ = .ok loc := by
      cases h : writeFile fs view ⟨true, dir ++ [name]⟩ with
      | error e => rw [h] at hwrite; cases hwrite
      | ok loc' => rw [h] at hwrite; cases hwrite; rfl
    obtain ⟨hwalk, hnode⟩ := (writeFile_newFile (noLink_of_resolve hdir)).mp hwritten
    exact ⟨⟨hup, parent, dir, name, hparent, hempty, hdir, hname, hdots, hwalk⟩, hnode⟩
  · rintro ⟨⟨hup, parent, dir, name, hparent, hempty, hdir, hname, hdots, hwalk⟩, hnode⟩
    refine ⟨_, content, safeResolveParent_eq_ok.mpr
      ⟨hup, parent, dir, name, hparent, hempty, hdir, hname, hdots, rfl⟩, ?_⟩
    rw [(writeFile_newFile (noLink_of_resolve hdir)).mpr ⟨hwalk, hnode⟩]
    rfl

/-- **What a call accesses**: the place to which the granted path leads. -/
theorem accessed_eq_some :
    accessed fs view listing capabilities path call = some loc ↔
      (∃ granted ∈ capabilities, capabilityMatches granted (call.required path) = true) ∧
        Leads fs view path loc call := by
  cases call with
  | read => exact checkedCall_eq_some.trans (and_congr_right fun _ => leads_read)
  | list => exact checkedCall_eq_some.trans (and_congr_right fun _ => leads_list)
  | write content => exact checkedCall_eq_some.trans (and_congr_right fun _ => leads_write)

/-- What the patterns grant for the text of a path, they grant for another text. -/
def Covers (path text : String) : Prop :=
  path = text ∨ ('*' ∈ path.toList ∧ path.toList <:+ text.toList ∧
    (path.toList.head? = some '*' ∨ path.toList <+: text.toList))

def FsCall.kind : FsCall → GlobKind
  | .read => .fileRead
  | .list => .fileRead
  | .write _ => .fileWrite

theorem required_eq (call : FsCall) : call.required = call.kind.capability := by
  cases call <;> rfl

/-- Everything that is granted a text is granted another one exactly if it covers it. -/
theorem granted_iff_covers (kind : GlobKind) (path text : String) :
    (∀ capabilities : List Capability,
        (∃ granted ∈ capabilities, capabilityMatches granted (kind.capability path) = true) →
          ∃ granted ∈ capabilities, capabilityMatches granted (kind.capability text) = true) ↔
      Covers path text := by
  have hcovers : Covers path text ↔ ∀ w : List Char, (OneStar.parse '*' w).Matches path.toList →
      (OneStar.parse '*' w).Matches text.toList := by
    rw [OneStar.forall_matches_iff, Covers, String.toList_inj]
  rw [hcovers]
  refine ⟨fun h w hw => ?_, fun h capabilities => ?_⟩
  · -- a guest with one capability
    have hgranted := h [kind.capability (String.ofList w)]
    simp only [List.mem_singleton, exists_eq_left, capabilityMatches_capability, globMatches_iff,
      globPattern, String.toList_ofList] at hgranted
    exact hgranted hw
  · rintro ⟨granted, hmem, hmatches⟩
    obtain ⟨w, rfl, hw⟩ := capabilityMatches_glob_right.mp hmatches
    refine ⟨_, hmem, capabilityMatches_glob_right.mpr ⟨w, rfl, ?_⟩⟩
    rw [globMatches_iff] at hw ⊢
    exact h w.toList hw

/-- **Confinement**, exactly if the path covers the canonical path of where it leads. -/
theorem guests_confined_iff (fs : FileSystem) (view : View fs) (listing : Location → List String)
    (path : String) (call : FsCall) :
    (∀ capabilities, Confined fs view listing capabilities path call) ↔
      ∀ loc, Leads fs view path loc call → Covers path (pathText loc) := by
  simp only [Confined, accessed_eq_some, required_eq, ← granted_iff_covers call.kind path]
  exact ⟨fun h loc hleads capabilities hgranted => h capabilities loc ⟨hgranted, hleads⟩,
    fun h capabilities loc hgranted => h loc hgranted.2 capabilities hgranted.1⟩

/-! ## A link out of a granted directory -/

def guestDisk : FileSystem :=
  .ofEntries
    [(["data".toList], .directory),
      (["data".toList, "link".toList], .symlink "/etc/secret".toList),
      (["etc".toList], .directory),
      (["etc".toList, "secret".toList], .file [42])]
    (by decide)

def hostProcess : View guestDisk := ⟨[], 40, rfl⟩

def dataGuest : List Capability := [.fileRead "/data/*", .fileWrite "/data/*"]

/-- The guest reads and writes `/etc/secret`, which it is not granted. -/
theorem link_escapes :
    hostFsRead guestDisk hostProcess dataGuest (some "/data/link") =
        .ok (["etc".toList, "secret".toList], "*") ∧
      hostFsWrite guestDisk hostProcess dataGuest (some "/data/link") (some "x") =
        .ok (["etc".toList, "secret".toList], "x") ∧
      pathText ["etc".toList, "secret".toList] = "/etc/secret" ∧
      (¬ Confined guestDisk hostProcess (fun _ => []) dataGuest "/data/link" .read) ∧
      ¬ Confined guestDisk hostProcess (fun _ => []) dataGuest "/data/link" (.write "x") := by
  have hread : hostFsRead guestDisk hostProcess dataGuest (some "/data/link") =
      .ok (["etc".toList, "secret".toList], "*") := by decide +kernel
  have hwrite : hostFsWrite guestDisk hostProcess dataGuest (some "/data/link") (some "x") =
      .ok (["etc".toList, "secret".toList], "x") := by decide +kernel
  refine ⟨hread, hwrite, by decide, fun h => ?_, fun h => ?_⟩
  · exact absurd (h ["etc".toList, "secret".toList] (by rw [accessed, hread]; rfl)) (by decide)
  · exact absurd (h ["etc".toList, "secret".toList] (by rw [accessed, hwrite]; rfl)) (by decide)

end AlloyAgent.HostFunctions
