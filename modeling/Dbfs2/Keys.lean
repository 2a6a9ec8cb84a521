-- The keys of an inode bucket: fixed field names, directory entries under
-- "data:", slices under "zdata:". All stand in one flat map, so reads and
-- listings rest on the classes never meeting.
import Dbfs2.Common

namespace dbfs2.common

/-! ## The keys -/

/-- The fixed keys of inode buckets and of the super block bucket. -/
inductive Field where
  | mode
  | size
  | hard_links
  | uid
  | gid
  | atime
  | mtime
  | ctime
  | block_size
  | data
  | dev
  | continue_number
  | magic
  | blk_size
  | disk_size
  deriving DecidableEq, Repr

def Field.key : Field → Bytes
  | mode => as_bytes "mode"
  | size => as_bytes "size"
  | hard_links => as_bytes "hard_links"
  | uid => as_bytes "uid"
  | gid => as_bytes "gid"
  | atime => as_bytes "atime"
  | mtime => as_bytes "mtime"
  | ctime => as_bytes "ctime"
  | block_size => as_bytes "block_size"
  | data => as_bytes "data"
  | dev => as_bytes "dev"
  | continue_number => as_bytes "continue_number"
  | magic => as_bytes "magic"
  | blk_size => as_bytes "blk_size"
  | disk_size => as_bytes "disk_size"

def Field.all : List Field :=
  [mode, size, hard_links, uid, gid, atime, mtime, ctime, block_size, data, dev,
    continue_number, magic, blk_size, disk_size]

theorem Field.mem_all (f : Field) : f ∈ Field.all := by
  cases f <;> decide

/-- The key of slice `num`: a `u64` slice number is cut to its low 32 bits. -/
def generate_data_key_with_number (num : UInt32) : Bytes := as_bytes "zdata:" ++ be_u32 num

/-- The key of a directory entry. -/
def generate_data_key (value : String) : Bytes := as_bytes ("data:" ++ value)

/-- `key.starts_with(b"data:")`: the test for a directory entry. -/
def is_data_key (key : Bytes) : Bool := (as_bytes "data:").isPrefixOf key

/-- The key of an entry other than the dots. -/
def is_name_key (key : Bytes) : Prop :=
  is_data_key key = true ∧ key ≠ generate_data_key "." ∧ key ≠ generate_data_key ".."

instance (key : Bytes) : Decidable (is_name_key key) := inferInstanceAs (Decidable (_ ∧ _ ∧ _))

/-- The second part of `key.splitn(2, ':')`: what stands after the first colon. -/
def after_colon : Bytes → Option Bytes
  | [] => none
  | c :: cs => if c = 0x3a then some cs else after_colon cs

/-! ## The classes of keys are disjoint -/

theorem as_bytes_append (s t : String) : as_bytes (s ++ t) = as_bytes s ++ as_bytes t := by
  simp [as_bytes]

theorem length_as_bytes (s : String) : (as_bytes s).length = s.utf8ByteSize := by
  simp [as_bytes]

theorem generate_data_key_eq (name : String) :
    generate_data_key name = [0x64, 0x61, 0x74, 0x61, 0x3a] ++ as_bytes name := by
  have h : as_bytes "data:" = [0x64, 0x61, 0x74, 0x61, 0x3a] := by decide
  rw [generate_data_key, as_bytes_append, h]

theorem generate_data_key_with_number_eq (num : UInt32) :
    generate_data_key_with_number num = [0x7a, 0x64, 0x61, 0x74, 0x61, 0x3a] ++ be_u32 num := by
  have h : as_bytes "zdata:" = [0x7a, 0x64, 0x61, 0x74, 0x61, 0x3a] := by decide
  rw [generate_data_key_with_number, h]

theorem Field.key_injective {f g : Field} (h : f.key = g.key) : f = g := by
  have hall : ∀ f ∈ Field.all, ∀ g ∈ Field.all, f.key = g.key → f = g := by decide +kernel
  exact hall f f.mem_all g g.mem_all h

@[simp]
theorem Field.key_inj {f g : Field} : f.key = g.key ↔ f = g :=
  ⟨Field.key_injective, fun h => by rw [h]⟩

theorem generate_data_key_injective {a b : String}
    (h : generate_data_key a = generate_data_key b) : a = b := by
  rw [generate_data_key_eq, generate_data_key_eq] at h
  exact as_bytes_injective (List.append_cancel_left h)

@[simp]
theorem generate_data_key_inj {a b : String} :
    generate_data_key a = generate_data_key b ↔ a = b :=
  ⟨generate_data_key_injective, fun h => by rw [h]⟩

theorem be_u32_injective {a b : UInt32} (h : be_u32 a = be_u32 b) : a = b := by
  have := u32_be a
  rw [h, u32_be] at this
  exact (Option.some.inj this).symm

@[simp]
theorem generate_data_key_with_number_inj {a b : UInt32} :
    generate_data_key_with_number a = generate_data_key_with_number b ↔ a = b := by
  refine ⟨fun h => ?_, fun h => by rw [h]⟩
  rw [generate_data_key_with_number_eq, generate_data_key_with_number_eq] at h
  exact be_u32_injective (List.append_cancel_left h)

@[simp]
theorem is_data_key_generate (name : String) : is_data_key (generate_data_key name) = true := by
  have h : as_bytes "data:" = [0x64, 0x61, 0x74, 0x61, 0x3a] := by decide
  rw [is_data_key, h, generate_data_key_eq]
  simp

@[simp]
theorem is_data_key_field (f : Field) : is_data_key f.key = false := by
  have hall : ∀ g ∈ Field.all, is_data_key g.key = false := by decide +kernel
  exact hall f f.mem_all

@[simp]
theorem is_data_key_number (num : UInt32) :
    is_data_key (generate_data_key_with_number num) = false := by
  have h : as_bytes "data:" = [0x64, 0x61, 0x74, 0x61, 0x3a] := by decide
  rw [is_data_key, h, generate_data_key_with_number_eq]
  rfl

/-- A key of one class is no key of another. -/
theorem ne_of_is_data_key {k k' : Bytes} (h : is_data_key k = true) (h' : is_data_key k' = false) :
    k ≠ k' := by
  rintro rfl
  rw [h] at h'
  cases h'

@[simp]
theorem generate_data_key_ne_field (name : String) (f : Field) :
    generate_data_key name ≠ f.key := ne_of_is_data_key (by simp) (by simp)

@[simp]
theorem field_ne_generate_data_key (name : String) (f : Field) :
    f.key ≠ generate_data_key name := (generate_data_key_ne_field name f).symm

@[simp]
theorem number_ne_field (num : UInt32) (f : Field) :
    generate_data_key_with_number num ≠ f.key := by
  have hhead : ∀ g ∈ Field.all, g.key.head? ≠ some 0x7a := by decide +kernel
  intro h
  rw [generate_data_key_with_number_eq] at h
  exact hhead f f.mem_all (by rw [← h]; rfl)

@[simp]
theorem field_ne_number (num : UInt32) (f : Field) :
    f.key ≠ generate_data_key_with_number num := (number_ne_field num f).symm

/-! ## What the decoders read back -/

@[simp]
theorem after_colon_generate (name : String) :
    after_colon (generate_data_key name) = some (as_bytes name) := by
  rw [generate_data_key_eq]
  rfl

@[simp]
theorem after_colon_number (num : UInt32) :
    after_colon (generate_data_key_with_number num) = some (be_u32 num) := by
  rw [generate_data_key_with_number_eq]
  rfl

/-- The byte order of two slice keys is the order of their numbers. -/
theorem number_lt_iff {a b : UInt32} :
    generate_data_key_with_number a < generate_data_key_with_number b ↔ a.toNat < b.toNat := by
  have hlt : be_u32 a < be_u32 b ↔ a.toNat < b.toNat :=
    BigEndian.encode_lt_iff (w := 4) a.toNat_lt b.toNat_lt
  rw [← hlt, generate_data_key_with_number_eq, generate_data_key_with_number_eq]
  have hlen : (be_u32 a).length = (be_u32 b).length := by simp [be_u32]
  constructor
  · intro h
    rcases lt_trichotomy (be_u32 a) (be_u32 b) with h1 | h1 | h1
    · exact h1
    · rw [h1] at h
      exact absurd h (lt_irrefl _)
    · exact absurd (BigEndian.decode_append_lt hlen.symm h1).1 (lt_asymm h)
  · exact fun h => (BigEndian.decode_append_lt hlen h).1

end dbfs2.common
