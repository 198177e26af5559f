import Mathlib.Data.List.Basic
import Mathlib.Data.List.DropRight
import Mathlib.Data.List.Infix

/-!
# Unix paths

A path is its text cut at the slashes: whether it begins with one, and the segments between them.

* `components`, `parent`, `fileName`, `join`: what the sandbox uses of `Path`;
* `startsWith_iff`: components are compared, not characters.
-/

namespace AlloyAgent

/-- A segment of a path, or the name of a directory entry. -/
abbrev Name := List Char

structure UnixPath where
  absolute : Bool
  segs : List Name
  deriving DecidableEq, Repr

namespace UnixPath

def dot : Name := ['.']

def dotDot : Name := ['.', '.']

def ofText : List Char → UnixPath
  | '/' :: text => ⟨true, text.splitOn '/'⟩
  | text => ⟨false, text.splitOn '/'⟩

def isEmpty (p : UnixPath) : Bool := !p.absolute && (p.segs = [] || p.segs = [[]])

/-- A segment that a component-wise reading skips. -/
def skipped (s : Name) : Bool := s = [] || s = dot

/-- A segment that can name a directory entry. -/
def Proper (s : Name) : Prop := s ≠ [] ∧ s ≠ dot ∧ s ≠ dotDot

instance (s : Name) : Decidable (Proper s) :=
  inferInstanceAs (Decidable (s ≠ [] ∧ s ≠ dot ∧ s ≠ dotDot))

inductive Component where
  | rootDir
  | curDir
  | parentDir
  | normal (name : Name)
  deriving DecidableEq, Repr

def component (s : Name) : Option Component :=
  if skipped s then none else if s = dotDot then some .parentDir else some (.normal s)

/-- `components()`: a dot counts only at the beginning of a relative path. -/
def components (p : UnixPath) : List Component :=
  (if p.absolute then [.rootDir] else if p.segs.head? = some dot then [.curDir] else []) ++
    p.segs.filterMap component

/-- The segments without those at the end that are skipped. -/
def trimRight (p : UnixPath) : UnixPath :=
  let segs := p.segs.rdropWhile skipped
  if segs = [] ∧ p.absolute = false ∧ p.segs.head? = some dot then ⟨false, [dot]⟩
  else ⟨p.absolute, segs⟩

/-- `parent()`: all but the last component. -/
def parent (p : UnixPath) : Option UnixPath :=
  if p.trimRight.segs = [] then none
  else some (trimRight ⟨p.absolute, p.trimRight.segs.dropLast⟩)

/-- `file_name()`: the last component, if it is a name. -/
def fileName (p : UnixPath) : Option Name :=
  p.trimRight.segs.getLast?.filter fun s => Proper s

def join (base p : UnixPath) : UnixPath :=
  if p.absolute then p
  else
    ⟨base.absolute,
      (if base.segs.getLast? = some [] then base.segs.dropLast else base.segs) ++ p.segs⟩

/-- `starts_with`: whole components are compared. -/
def startsWith (p base : UnixPath) : Bool := base.components.isPrefixOf p.components

theorem proper_of_fileName {p : UnixPath} {s : Name} (h : p.fileName = some s) : Proper s := by
  simpa using (Option.filter_eq_some_iff.mp h).2

theorem component_of_proper (h : Proper s) : component s = some (.normal s) := by
  simp [component, skipped, h.1, h.2.1, h.2.2]

theorem components_of_proper {segs : List Name} (h : ∀ s ∈ segs, Proper s) :
    components ⟨true, segs⟩ = .rootDir :: segs.map .normal := by
  have hmap : segs.filterMap component = segs.map .normal := by
    induction segs with
    | nil => rfl
    | cons s segs ih =>
      rw [List.filterMap_cons_some (component_of_proper (h s List.mem_cons_self)),
        ih fun t ht => h t (List.mem_cons_of_mem _ ht), List.map_cons]
  simp only [components, hmap, if_true, List.singleton_append]

/-- Between absolute paths of names, `starts_with` is the prefix relation. -/
theorem startsWith_iff {segs base : List Name} (hsegs : ∀ s ∈ segs, Proper s)
    (hbase : ∀ s ∈ base, Proper s) :
    startsWith ⟨true, segs⟩ ⟨true, base⟩ = true ↔ base <+: segs := by
  rw [startsWith, List.isPrefixOf_iff_prefix, components_of_proper hsegs,
    components_of_proper hbase, List.prefix_cons_inj]
  refine ⟨fun h => ?_, fun h => h.map _⟩
  have hinj : Function.Injective Component.normal := fun _ _ h => Component.normal.inj h
  exact (List.prefix_map_iff_of_injective hinj).mp h

end UnixPath

end AlloyAgent
