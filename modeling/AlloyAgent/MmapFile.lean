import AlloyAgent.Transition

/-!
# Files mapped into memory

`libos_mmap` of AlloyStack registers a region of memory whose pages are filled on demand, by one
thread, `file_page_fault_handler`, through one buffer of the size of a page.

* `step`: regions are mapped, and pages are faulted in;
* `doPageFault_eq_iff`: inside the file a page is right, behind its end the buffer shows through;
* `pages_faithful_iff`: which runs show every page as its file has it.
-/

namespace AlloyAgent.MmapFile

open Transition

def pageSize : ℕ := 0x1000

structure File where
  bytes : List UInt8
  size_lt : bytes.length < 2 ^ 32

abbrev Page := Fin pageSize → UInt8

/-- `RegisterdMemRegion`, with its length: the file and the number of pages. -/
structure Region where
  srcFd : ℕ
  pages : ℕ

/-- The bytes that a page of a region has to show. -/
def File.page (file : File) (p : ℕ) : Page := fun i => (file.bytes[p * pageSize + i]?).getD 0

/-- A page that has been copied into a region. -/
structure Mapped where
  region : ℕ
  page : ℕ
  content : Page

structure State where
  regions : List Region
  page : Page
  mapped : List Mapped

def init (page : Page) : State := ⟨[], page, []⟩

inductive Event where
  | mmap (length fd : ℕ)
  | fault (region offset : ℕ)

/-- `read_at_offset`: the read ends with the buffer or with the file. -/
def readAtOffset (file : File) (offset : ℕ) (page : Page) : Page :=
  fun i => (file.bytes[offset + i]?).getD (page i)

section

variable (files : ℕ → File)

/-- `do_page_fault`: what the buffer has after the read. -/
def doPageFault (s : State) (region : Region) (offset : ℕ) : Page :=
  let alignedOffset := offset / pageSize * pageSize
  -- `aligned_offset as u32`
  readAtOffset (files region.srcFd) (alignedOffset % 2 ^ 32) s.page

def State.present (s : State) (r p : ℕ) : Bool :=
  s.mapped.any fun m => m.region = r ∧ m.page = p

def step (s : State) : Event → Option State
  | .mmap length fd =>
    if length % pageSize > 0 then none
    else some { s with regions := s.regions ++ [⟨fd, length / pageSize⟩] }
  | .fault r offset =>
    match s.regions[r]? with
    | none => none
    | some region =>
      if offset < region.pages * pageSize ∧ s.present r (offset / pageSize) = false then
        let page := doPageFault files s region offset
        some { s with page := page, mapped := ⟨r, offset / pageSize, page⟩ :: s.mapped }
      else none

/-- Every page in memory shows its part of its own file, and zeros after the end. -/
def Faithful (s : State) : Prop :=
  ∀ m ∈ s.mapped, ∃ region, s.regions[m.region]? = some region ∧
    m.content = (files region.srcFd).page m.page

/-- The part of the page behind the end of the file: where the seek, with the offset that has been
cut to 32 bits, reads a byte of the file, it is zero, and where it reads none, the buffer is. -/
def CleanFault (s : State) : Event → Prop
  | .mmap _ _ => True
  | .fault r offset =>
    ∀ region, s.regions[r]? = some region → ∀ i : Fin pageSize,
      let file := files region.srcFd
      let seek := offset / pageSize * pageSize % 2 ^ 32
      file.bytes.length ≤ offset / pageSize * pageSize + i →
        if h : seek + i < file.bytes.length then file.bytes[seek + i] = 0 else s.page i = 0

variable {files} {s s' : State}

/-- **Inside the file a page is right**, whatever was in the buffer. -/
theorem fault_inside {region : Region} {offset : ℕ} {i : Fin pageSize}
    (h : offset / pageSize * pageSize + i < (files region.srcFd).bytes.length) :
    doPageFault files s region offset i = (files region.srcFd).page (offset / pageSize) i := by
  have hsize := (files region.srcFd).size_lt
  have hoffset : offset / pageSize * pageSize % 2 ^ 32 = offset / pageSize * pageSize :=
    Nat.mod_eq_of_lt (by omega)
  rw [doPageFault, readAtOffset, hoffset, File.page, List.getElem?_eq_getElem h]
  rfl

theorem page_of_le {file : File} {p : ℕ} {i : Fin pageSize}
    (h : file.bytes.length ≤ p * pageSize + i) : file.page p i = 0 := by
  rw [File.page, List.getElem?_eq_none h]
  rfl

theorem doPageFault_eq_zero_iff {region : Region} {offset : ℕ} {i : Fin pageSize} :
    doPageFault files s region offset i = 0 ↔
      if h : offset / pageSize * pageSize % 2 ^ 32 + i < (files region.srcFd).bytes.length then
        (files region.srcFd).bytes[offset / pageSize * pageSize % 2 ^ 32 + i] = 0
      else s.page i = 0 := by
  rw [doPageFault, readAtOffset]
  split_ifs with h
  · rw [List.getElem?_eq_getElem h, Option.getD_some]
  · rw [List.getElem?_eq_none (Nat.le_of_not_lt h), Option.getD_none]

/-- A page is right if all that lies behind the end of the file comes out as zero. -/
theorem doPageFault_eq_iff {region : Region} {offset : ℕ} :
    doPageFault files s region offset = (files region.srcFd).page (offset / pageSize) ↔
      ∀ i : Fin pageSize, (files region.srcFd).bytes.length ≤ offset / pageSize * pageSize + i →
        doPageFault files s region offset i = 0 := by
  refine ⟨fun h i hi => ?_, fun h => funext fun i => ?_⟩
  · rw [h, page_of_le hi]
  · rcases Nat.lt_or_ge (offset / pageSize * pageSize + i) (files region.srcFd).bytes.length with
      hi | hi
    · exact fault_inside hi
    · rw [h i hi, page_of_le hi]

theorem step_cases (h : step files s e = some s') :
    (∃ length fd, e = .mmap length fd ∧
      s' = { s with regions := s.regions ++ [⟨fd, length / pageSize⟩] }) ∨
    (∃ r offset region, e = .fault r offset ∧ s.regions[r]? = some region ∧
      s' = { s with
        page := doPageFault files s region offset
        mapped := ⟨r, offset / pageSize, doPageFault files s region offset⟩ :: s.mapped }) := by
  cases e with
  | mmap length fd =>
    rw [step] at h
    split_ifs at h
    exact .inl ⟨length, fd, rfl, (Option.some.inj h).symm⟩
  | fault r offset =>
    rw [step] at h
    cases hr : s.regions[r]? with
    | none =>
      rw [hr] at h
      cases h
    | some region =>
      rw [hr] at h
      dsimp only at h
      split_ifs at h
      exact .inr ⟨r, offset, region, rfl, hr, (Option.some.inj h).symm⟩

/-- **A fault keeps memory faithful exactly if it is clean.** -/
theorem faithful_step_iff (s : State) (e : Event) (s' : State) (hs : Faithful files s)
    (hstep : step files s e = some s') : Faithful files s' ↔ CleanFault files s e := by
  rcases step_cases hstep with ⟨length, fd, rfl, rfl⟩ | ⟨r, offset, region, rfl, hr, rfl⟩
  · refine iff_of_true (fun m hm => ?_) trivial
    obtain ⟨region, hregion, hcontent⟩ := hs m hm
    refine ⟨region, ?_, hcontent⟩
    exact getElem?_concat_eq_some.mpr (.inl hregion)
  · have hfault : Faithful files { s with
          page := doPageFault files s region offset
          mapped := ⟨r, offset / pageSize, doPageFault files s region offset⟩ :: s.mapped } ↔
        doPageFault files s region offset = (files region.srcFd).page (offset / pageSize) := by
      refine (List.forall_mem_cons.trans (and_iff_left hs)).trans ?_
      simp only [hr, Option.some.injEq, exists_eq_left']
    rw [hfault, doPageFault_eq_iff, CleanFault, hr]
    simp only [Option.some.injEq, forall_eq', doPageFault_eq_zero_iff]

/-- **When mapped memory shows the files**, for every order of mappings and faults. -/
theorem pages_faithful_iff {page : Page} {events : List Event}
    (hrun : run (step files) (init page) events = some s) :
    Throughout (step files) (Faithful files) (init page) events ↔
      Guarded (step files) (CleanFault files) (init page) events :=
  throughout_iff_guarded faithful_step_iff events (fun _ h => (List.not_mem_nil h).elim) hrun

end

def shortFiles : ℕ → File
  | 0 => ⟨[0x41, 0x41], by decide⟩
  | _ => ⟨[0x42], by decide⟩

/-- A short file alone, in a buffer of zeros. -/
theorem short_file_faithful :
    Throughout (step shortFiles) (Faithful shortFiles) (init fun _ => 0)
      [.mmap 0x1000 0, .fault 0 5] := by
  apply (pages_faithful_iff rfl).mpr
  refine .cons trivial rfl (.cons ?_ rfl trivial)
  rintro region ⟨⟩ i file seek hi
  exact (dif_neg (Nat.not_lt_of_le hi)).mpr rfl

def secondByte : Fin pageSize := ⟨1, by decide⟩

/-- The second byte of a page is that of the file that was mapped before it. -/
theorem other_file_visible :
    (shortFiles 1).page 0 secondByte = 0 ∧ (shortFiles 0).page 0 secondByte = 0x41 ∧
    ∀ page : Page, ∃ s m, run (step shortFiles) (init page)
        [.mmap 0x1000 0, .mmap 0x1000 1, .fault 0 0, .fault 1 0] = some s ∧
      m ∈ s.mapped ∧ m.region = 1 ∧ m.page = 0 ∧ m.content secondByte = 0x41 :=
  ⟨rfl, rfl, fun _ => ⟨_, _, rfl, List.mem_cons_self, rfl, rfl, rfl⟩⟩

end AlloyAgent.MmapFile
