import AlloyAgent.UnixPath

/-!
# A file system with symbolic links

A file system says what stands at each location, a location being the list of names on the way from
the root.

* `resolve`, `canonicalize`: a path is walked component by component;
* `walk_location`: a location is reached by its own path.
-/

namespace AlloyAgent

open UnixPath

/-- The names on the way from the root. -/
abbrev Location := List Name

inductive Node where
  | directory
  | file (contents : List UInt8)
  | symlink (target : List Char)
  deriving DecidableEq, Repr

/-- A file system: what is in a directory has a proper name. -/
structure FileSystem where
  node : Location → Option Node
  root : node [] = some .directory
  inDirectory : ∀ dir name, node (dir ++ [name]) ≠ none → node dir = some .directory ∧ Proper name

/-- A file system given by its entries, each of which lies in a directory. -/
def FileSystem.ofEntries (entries : List (Location × Node))
    (h : ∀ e ∈ entries, (e.1.dropLast = [] ∨ entries.lookup e.1.dropLast = some .directory) ∧
      ∀ s ∈ e.1.getLast?, Proper s) : FileSystem where
  node := fun loc => if loc = [] then some .directory else entries.lookup loc
  root := if_pos rfl
  inDirectory := by
    intro dir name hne
    rw [if_neg (by simp)] at hne
    obtain ⟨n, hn⟩ := Option.ne_none_iff_exists'.mp hne
    obtain ⟨l₁, l₂, hl, -⟩ := List.lookup_eq_some_iff.mp hn
    obtain ⟨hdir, hname⟩ := h (dir ++ [name], n) (by simp [hl])
    rw [List.dropLast_concat] at hdir
    refine ⟨?_, hname name (by simp)⟩
    split_ifs with hroot
    · rfl
    · exact hdir.resolve_left hroot

inductive Errno where
  | notFound
  | notDirectory
  | tooManyLinks
  deriving DecidableEq, Repr

def Errno.display : Errno → String
  | .notFound => "No such file or directory (os error 2)"
  | .notDirectory => "Not a directory (os error 20)"
  | .tooManyLinks => "Too many levels of symbolic links (os error 40)"

namespace FileSystem

variable (fs : FileSystem)

/-- Walk from a location along some segments; what to do at a link is a parameter. -/
def walkWith (create : Bool) (follow : Location → List Name → Except Errno Location) :
    Location → List Name → Except Errno Location
  | cur, [] => .ok cur
  | cur, s :: rest =>
    if fs.node cur ≠ some .directory then .error .notDirectory
    else if skipped s then walkWith create follow cur rest
    else if s = dotDot then walkWith create follow cur.dropLast rest
    else
      match fs.node (cur ++ [s]) with
      | none => if create && rest.isEmpty then .ok (cur ++ [s]) else .error .notFound
      | some (.symlink target) =>
        follow (if (ofText target).absolute then [] else cur) ((ofText target).segs ++ rest)
      | some _ => walkWith create follow (cur ++ [s]) rest

/-- Walk from a location along some segments, following at most `links` links. -/
def walk (create : Bool) : ℕ → Location → List Name → Except Errno Location
  | 0 => fs.walkWith create fun _ _ => .error .tooManyLinks
  | links + 1 => fs.walkWith create (walk create links)

def follow (create : Bool) (links : ℕ) (dir : Location) (target : List Char)
    (rest : List Name) : Except Errno Location :=
  match links with
  | 0 => .error .tooManyLinks
  | links + 1 =>
    fs.walk create links (if (ofText target).absolute then [] else dir)
      ((ofText target).segs ++ rest)

/-- What a process sees of the system: its working directory and the limit on links. -/
structure View where
  cwd : Location
  links : ℕ
  isDirectory : fs.node cwd = some .directory

variable {fs} {view : View fs} {create : Bool} {links : ℕ} {cur dir loc : Location} {s : Name}
  {rest : List Name}

def resolve (fs : FileSystem) (view : View fs) (create : Bool) (p : UnixPath) :
    Except Errno Location :=
  if p.isEmpty then .error .notFound
  else fs.walk create view.links (if p.absolute then [] else view.cwd) p.segs

def canonicalize (fs : FileSystem) (view : View fs) (p : UnixPath) : Except Errno UnixPath :=
  (fs.resolve view false p).map fun loc => ⟨true, loc⟩

/-- `exists`: the path can be resolved. -/
def pathExists (fs : FileSystem) (view : View fs) (p : UnixPath) : Bool :=
  (fs.resolve view false p).isOk

/-- The location that is read, or written (`create`), when a path is opened as a file. -/
def opened (fs : FileSystem) (view : View fs) (create : Bool) (p : UnixPath) : Option Location :=
  (fs.resolve view create p).toOption.filter fun loc => fs.node loc ≠ some .directory

@[simp] theorem walk_nil : fs.walk create links cur [] = .ok cur := by
  cases links <;> rfl

theorem walk_of_not_directory (h : fs.node cur ≠ some .directory) :
    fs.walk create links cur (s :: rest) = .error .notDirectory := by
  cases links <;> simp [walk, walkWith, h]

theorem walk_name (hcur : fs.node cur = some .directory) (hs : Proper s) :
    fs.walk create links cur (s :: rest) =
      match fs.node (cur ++ [s]) with
      | none => if create && rest.isEmpty then .ok (cur ++ [s]) else .error .notFound
      | some (.symlink target) => fs.follow create links cur target rest
      | some _ => fs.walk create links (cur ++ [s]) rest := by
  have hskip : skipped s = false := by simp [skipped, hs.1, hs.2.1]
  cases links <;> simp only [walk, walkWith, hcur, hskip, hs.2.2, ne_eq, not_true, if_false,
    Bool.false_eq_true, follow]

/-! ## Locations without links -/

theorem proper_of_node (h : fs.node loc ≠ none) : ∀ s ∈ loc, Proper s := by
  induction loc using List.reverseRecOn with
  | nil => exact fun _ hs => by cases hs
  | append_singleton dir name ih =>
    obtain ⟨hdir, hname⟩ := fs.inDirectory dir name h
    rw [List.forall_mem_append, List.forall_mem_singleton]
    exact ⟨ih (by simp [hdir]), hname⟩

/-- Something stands at the location, and it is no link. -/
def NoLink (fs : FileSystem) (loc : Location) : Prop :=
  ∃ n, fs.node loc = some n ∧ ∀ target, n ≠ .symlink target

theorem noLink_of_directory (h : fs.node loc = some .directory) : fs.NoLink loc :=
  ⟨_, h, fun _ => by simp⟩

theorem NoLink.proper (h : fs.NoLink loc) : ∀ s ∈ loc, Proper s := by
  obtain ⟨n, hn, -⟩ := h
  exact proper_of_node fun hnone => by cases hn.symm.trans hnone

/-- **A location is reached by its own path**, whatever the limit on links is. -/
theorem walk_location (h : fs.NoLink loc) :
    fs.walk create links [] (loc ++ rest) = fs.walk create links loc rest := by
  induction loc using List.reverseRecOn generalizing rest with
  | nil => rfl
  | append_singleton dir name ih =>
    obtain ⟨n, hn, hlink⟩ := h
    obtain ⟨hdir, hname⟩ := fs.inDirectory dir name (by simp [hn])
    rw [List.append_assoc, List.singleton_append, ih (noLink_of_directory hdir),
      walk_name hdir hname, hn]
    cases n with
    | directory | file contents => rfl
    | symlink target => exact absurd rfl (hlink target)

theorem walkWith_found {follow : Location → List Name → Except Errno Location}
    (hfollow : ∀ cur segs loc, fs.NoLink cur → follow cur segs = .ok loc → fs.NoLink loc) :
    ∀ {segs : List Name} {cur : Location}, fs.NoLink cur →
      fs.walkWith false follow cur segs = .ok loc → fs.NoLink loc := by
  intro segs
  induction segs with
  | nil =>
    intro cur hcur h
    exact Except.ok.inj h ▸ hcur
  | cons s rest ih =>
    intro cur hcur h
    simp only [walkWith, Bool.false_and, Bool.false_eq_true, if_false] at h
    split_ifs at h with hdir hskip hup
    · exact ih hcur h
    · -- one level up is a directory
      refine ih (noLink_of_directory ?_) h
      rcases List.eq_nil_or_concat cur with rfl | ⟨dir, name, rfl⟩
      · exact fs.root
      · obtain ⟨n, hn, -⟩ := hcur
        rw [List.concat_eq_append] at hn ⊢
        rw [List.dropLast_concat]
        exact (fs.inDirectory dir name (by simp [hn])).1
    · split at h
      · cases h
      · split_ifs at h
        · exact hfollow _ _ _ (noLink_of_directory fs.root) h
        · exact hfollow _ _ _ hcur h
      · rename_i m hm hnode
        exact ih ⟨m, hnode, hm⟩ h

theorem walk_found (links : ℕ) : ∀ {segs : List Name} {cur loc : Location}, fs.NoLink cur →
    fs.walk false links cur segs = .ok loc → fs.NoLink loc := by
  induction links with
  | zero =>
    intro segs cur loc hcur h
    exact walkWith_found (fun _ _ _ _ h => by cases h) hcur h
  | succ links ih =>
    intro segs cur loc hcur h
    exact walkWith_found (fun _ _ _ hcur h => ih hcur h) hcur h

theorem noLink_of_resolve (h : fs.resolve view false p = .ok loc) : fs.NoLink loc := by
  rw [resolve] at h
  split_ifs at h
  · exact walk_found _ (noLink_of_directory fs.root) h
  · exact walk_found _ (noLink_of_directory view.isDirectory) h

theorem resolve_append (h : fs.NoLink loc) :
    fs.resolve view create ⟨true, loc ++ rest⟩ = fs.walk create view.links loc rest := by
  rw [← walk_location h]
  simp [resolve, isEmpty]

theorem resolve_location (h : fs.NoLink loc) : fs.resolve view create ⟨true, loc⟩ = .ok loc := by
  have hres : fs.resolve view create ⟨true, loc ++ []⟩ = fs.walk create view.links loc [] :=
    resolve_append h
  rwa [List.append_nil, walk_nil] at hres

/-- What `canonicalize` answers is the location to which the path resolves. -/
theorem canonicalize_eq_ok (h : fs.canonicalize view p = .ok q) :
    ∃ loc, fs.resolve view false p = .ok loc ∧ q = ⟨true, loc⟩ := by
  rw [canonicalize] at h
  cases hres : fs.resolve view false p with
  | error e => rw [hres] at h; cases h
  | ok loc => rw [hres] at h; exact ⟨loc, rfl, (Except.ok.inj h).symm⟩

theorem join_location (hdir : fs.NoLink dir) :
    join ⟨true, dir⟩ ⟨false, [name]⟩ = ⟨true, dir ++ [name]⟩ := by
  have hlast : dir.getLast? ≠ some [] := by
    intro hlast
    exact (hdir.proper [] (List.mem_of_getLast? hlast)).1 rfl
  simp [join, hlast]

end FileSystem

end AlloyAgent
