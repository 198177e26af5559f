import AlloyAgent.Fdtab
import AlloyAgent.HashTable

/-!
# Writing files in the LibOS

A program on AlloyStack writes to a file through `write_all` of `as_std`, the descriptor table and
`fatfs_write`.

* `writeAll_reads_back_iff`: when a write that is reported has been made;
* `fromBufferSlot_store_iff`: when a value that goes through a file comes back.
-/

namespace AlloyAgent.FatFile

open List

/-- An open file: the bytes in front of its position, and those from there on. -/
structure File where
  front : List UInt8
  rest : List UInt8

def File.content (f : File) : List UInt8 := f.front ++ f.rest

/-- `seek`, which does not go behind the end. -/
def File.seek (f : File) (pos : ℕ) : File := ⟨f.content.take pos, f.content.drop pos⟩

/-- `fatfs_read`, which reads until the buffer is full or the file ends. -/
def File.read (f : File) (len : ℕ) : List UInt8 := f.rest.take len

/-- Bytes are written at the position. -/
def File.put (f : File) (data : List UInt8) : File :=
  ⟨f.front ++ data, f.rest.drop data.length⟩

/-- `write_all` of the FAT layer, over the results of its writes, and what it has not written. -/
def File.fatWriteAll : List (Option ℕ) → File → List UInt8 → File × List UInt8
  | _, f, [] => (f, [])
  | some (n + 1) :: outs, f, data =>
    fatWriteAll outs (f.put (data.take (n + 1))) (data.drop (n + 1))
  -- an error, or no byte was taken
  | _, f, data => (f, data)

/-- The error of `write_all`, and that of `flush`, are dropped. -/
def fatfsWrite (outs : List (Option ℕ)) (f : File) (buf : List UInt8) : File × ℕ :=
  ((f.fatWriteAll outs buf).1, buf.length)

/-- `Write::write_all`; `outs` is what the FAT layer does, call by call, and `none` is the panic. -/
def writeAll (outs : ℕ → List (Option ℕ)) (f : File) (buf : List UInt8) : Option File :=
  if buf = [] then some f
  else
    match fatfsWrite (outs 0) f buf with
    | (_, 0) => none
    | (f, n + 1) => writeAll (fun i => outs (i + 1)) f (buf.drop (n + 1))
termination_by buf.length
decreasing_by
  rw [length_drop]
  have := length_pos_of_ne_nil ‹_›
  omega

/-- The descriptor table leads a write to `fatfs_write`, and reports what that returns. -/
theorem call_write_fatFs (t : Fdtab.FdTable) (hfd : 3 ≤ fd)
    (hlive : Fdtab.live t fd = some ⟨⟨rd, true⟩, .fatFs rawFd⟩) (outs : List (Option ℕ)) (f : File)
    (buf : List UInt8) :
    Fdtab.call t (.write fd buf.length (.ok (fatfsWrite outs f buf).2)) =
      some (t, some (.write (.fatFs rawFd)), .ok buf.length) := by
  rw [Fdtab.call, if_neg (by omega), if_neg (by omega), Fdtab.withFile, Fdtab.index_eq (by omega),
    Option.map_some, ← Fdtab.live_eq (by omega), hlive]
  rfl

theorem File.put_put (f : File) (data more : List UInt8) :
    (f.put data).put more = f.put (data ++ more) := by
  simp only [File.put, append_assoc, drop_drop, length_append]

theorem File.fatWriteAll_spec (outs : List (Option ℕ)) (f : File) (data : List UInt8) :
    ∃ written, data = written ++ (f.fatWriteAll outs data).2 ∧
      (f.fatWriteAll outs data).1 = f.put written := by
  have hnil (f : File) : f = f.put [] := by
    simp [File.put]
  fun_induction File.fatWriteAll outs f data with
  | case1 outs f => exact ⟨[], rfl, hnil f⟩
  | case2 n outs f data _ ih =>
    obtain ⟨written, hdata, hfile⟩ := ih
    refine ⟨data.take (n + 1) ++ written, ?_, hfile.trans (File.put_put ..)⟩
    rw [append_assoc, ← hdata, take_append_drop]
  | case3 outs f data => exact ⟨[], rfl, hnil f⟩

theorem writeAll_eq (outs : ℕ → List (Option ℕ)) (f : File) (data : List UInt8) :
    writeAll outs f data = some (f.fatWriteAll (outs 0) data).1 := by
  rw [writeAll]
  cases data with
  | nil => rw [if_pos rfl, File.fatWriteAll]
  | cons b data =>
    rw [if_neg (cons_ne_nil _ _)]
    simp only [fatfsWrite, length_cons]
    rw [writeAll, if_pos (by simp)]

/-- **When a reported write is a real one**: all was taken, or stood in the file already. -/
theorem writeAll_reads_back_iff (outs : ℕ → List (Option ℕ)) (f : File) (data : List UInt8) :
    (∀ f', writeAll outs f data = some f' →
        (f'.seek f.front.length).read data.length = data) ↔
      (f.fatWriteAll (outs 0) data).2 <+: (f.fatWriteAll (outs 0) data).1.rest := by
  obtain ⟨written, hdata, hfile⟩ := f.fatWriteAll_spec (outs 0) data
  rw [writeAll_eq, hfile]
  generalize (f.fatWriteAll (outs 0) data).2 = unwritten at hdata
  have hseek : ((f.put written).seek f.front.length).rest =
      written ++ f.rest.drop written.length := by
    rw [File.seek, File.content, File.put, append_assoc, drop_left]
  simp only [Option.some.injEq, forall_eq', File.read, hseek, hdata, length_append,
    take_length_add_append, append_cancel_left_eq]
  rw [prefix_iff_eq_take, eq_comm]
  rfl

/-- The image is full, and the byte is lost. -/
theorem lost_write :
    ∃ f, writeAll (fun _ => [none]) ⟨[], []⟩ [1] = some f ∧ (f.seek 0).read 1 ≠ [1] :=
  ⟨_, writeAll_eq .., by decide⟩

/-! ## The file-based DataBuffer -/

structure DataBuffer (T : Type) where
  inner : T
  slot : String
  used : Bool

/-- White space between the tokens of JSON. -/
def blank (b : UInt8) : Bool := b = 0x20 || b = 0x09 || b = 0x0A || b = 0x0D

def digit (b : UInt8) : Bool := 0x30 ≤ b && b ≤ 0x39

/-- A text that ends with a digit is a number, and it goes on in a digit or one of `. e E`. -/
def GoesOn (text rest : List UInt8) : Prop :=
  (∃ b ∈ text.getLast?, digit b) ∧ ∃ b ∈ rest.head?, digit b || b = 0x2E || b = 0x65 || b = 0x45

/-- `serde_json`: `from_slice` decodes what `to_string` has encoded, and nothing but white space may
follow. -/
structure Serde (T : Type) where
  toString : T → List UInt8
  fromSlice : List UInt8 → Option T
  fromSlice_append : ∀ value rest, ¬ GoesOn (toString value) rest →
    (fromSlice (toString value ++ rest) = some value ↔ ∀ b ∈ rest, blank b)

variable {T : Type} (serde : Serde T)

abbrev Disk := Table String (List UInt8)

def imd (slot : String) : String := slot ++ ".imd"

/-- What the file of a slot holds, if there is one. -/
def imdContent (disk : Disk) (slot : String) : List UInt8 := (disk.lookup (imd slot)).getD []

def DataBuffer.drop (b : DataBuffer T) (disk : Disk) : Disk :=
  if b.used then disk
  else
    -- `File::create` keeps the content
    let file : File := ⟨[], imdContent disk b.slot⟩
    disk.insert (imd b.slot) (file.put (serde.toString b.inner)).content

/-- `from_buffer_slot`; the outer `none` is the panic of a text that cannot be decoded. -/
def fromBufferSlot (disk : Disk) (slot : String) : Option (Option (DataBuffer T)) :=
  match disk.lookup (imd slot) with
  | none => some none
  | some content => (serde.fromSlice content).map fun value => some ⟨value, slot, true⟩

/-- A buffer is created with the slot, the value is assigned, and the buffer is dropped. -/
def store (slot : String) (disk : Disk) (value : T) : Disk :=
  DataBuffer.drop serde ⟨value, slot, false⟩ disk

theorem lookup_store (slot : String) (disk : Disk) (value : T) :
    (store serde slot disk value).lookup (imd slot) = some (serde.toString value ++
      (imdContent disk slot).drop (serde.toString value).length) :=
  AList.lookup_insert _

theorem imdContent_stores_length_le (slot : String) (disk : Disk) (values : List T) (n : ℕ) :
    (imdContent (values.foldl (store serde slot) disk) slot).length ≤ n ↔
      (imdContent disk slot).length ≤ n ∧ ∀ value ∈ values, (serde.toString value).length ≤ n := by
  induction values generalizing disk with
  | nil => simp
  | cons value values ih =>
    rw [foldl_cons, ih, forall_mem_cons, ← and_assoc]
    refine and_congr_left' ?_
    rw [imdContent, lookup_store, Option.getD_some, length_append, length_drop]
    omega

/-- What a value leaves of the content that is in the file of the slot. -/
def leftover (slot : String) (disk : Disk) (value : T) : List UInt8 :=
  (imdContent disk slot).drop (serde.toString value).length

/-- **When the last value comes back**: what older values have left behind it is blank, which is
so if none of them was longer. (A number that goes on in what is left may be the same number.) -/
theorem fromBufferSlot_store_iff (slot : String) (disk : Disk) (values : List T) (last : T)
    (hends : ¬ GoesOn (serde.toString last)
      (leftover serde slot (values.foldl (store serde slot) disk) last)) :
    (fromBufferSlot serde ((values ++ [last]).foldl (store serde slot) disk) slot =
        some (some ⟨last, slot, true⟩) ↔
      ∀ b ∈ leftover serde slot (values.foldl (store serde slot) disk) last, blank b) ∧
    (leftover serde slot (values.foldl (store serde slot) disk) last = [] ↔
      (imdContent disk slot).length ≤ (serde.toString last).length ∧
        ∀ value ∈ values, (serde.toString value).length ≤ (serde.toString last).length) := by
  refine ⟨?_, ?_⟩
  · have hread (content : List UInt8) :
        (serde.fromSlice content).map (fun value => some (⟨value, slot, true⟩ : DataBuffer T)) =
          some (some ⟨last, slot, true⟩) ↔ serde.fromSlice content = some last := by
      simp
    rw [foldl_append, foldl_cons, foldl_nil, fromBufferSlot, lookup_store]
    exact (hread _).trans (serde.fromSlice_append last _ hends)
  · rw [← imdContent_stores_length_le, leftover, drop_eq_nil_iff]

def boolText (value : Bool) : List UInt8 :=
  if value then "true".toUTF8.data.toList else "false".toUTF8.data.toList

/-- The text of the value, and white space behind it. -/
def isBool (value : Bool) (content : List UInt8) : Bool :=
  (boolText value).isPrefixOf content && (content.drop (boolText value).length).all blank

theorem isBool_append (value : Bool) (rest : List UInt8) :
    isBool value (boolText value ++ rest) = rest.all blank := by
  simp [isBool]

def bools : Serde Bool where
  toString := boolText
  fromSlice content :=
    if isBool true content then some true else if isBool false content then some false else none
  fromSlice_append := by
    intro value rest _
    cases value with
    | true => simp [isBool_append]
    | false =>
      have hother : isBool true (boolText false ++ rest) = false := rfl
      simp [isBool_append, hother]

/-- A text over a longer one of which blanks are left. -/
theorem value_over_blanks :
    fromBufferSlot bools (([] ++ [true]).foldl (store bools "data")
      (AList.singleton "data.imd" "true  ".toUTF8.data.toList)) "data" =
        some (some ⟨true, "data", true⟩) := by
  refine (fromBufferSlot_store_iff bools "data" _ [] true ?_).1.mpr (all_eq_true.mp (by decide))
  rintro ⟨⟨b, hb, hdigit⟩, -⟩
  obtain rfl : 0x65 = b := Option.some.inj hb
  exact absurd hdigit (by decide)

/-- The file holds `truee`, which cannot be decoded. -/
theorem shorter_value_lost :
    fromBufferSlot bools ([false, true].foldl (store bools "data") ∅) "data" = none := by
  decide

end AlloyAgent.FatFile
