-- The key space of an inode bucket. Fields, entries, slices and the attributes of both front
-- ends stand in one flat map, and every walk tells its own keys from the others by how they
-- begin.
import Dbfs2.FileRead
import Dbfs2.Ops
import Dbfs2.Readdir

namespace dbfs2

open common inode attr

/-! ## The classes of keys -/

/-- The fixed keys of an inode; the other ones are of the super block. -/
def Field.of_inode : List Field :=
  [.mode, .size, .hard_links, .uid, .gid, .atime, .mtime, .ctime, .block_size, .data, .dev]

/-- A key of an inode bucket, by its class. -/
inductive InodeKey where
  | entry (name : String)
  | slice (num : UInt32)
  | attr (name : String)
  | xattr (name : String) (accepted : IsXattr name)
  | field (f : Field) (fixed : f ∈ Field.of_inode)

/-- The bytes of the key. -/
def InodeKey.key : InodeKey → Bytes
  | entry name => generate_data_key name
  | slice num => generate_data_key_with_number num
  | attr name => attr_key name
  | xattr name _ => as_bytes name
  | field f _ => f.key

/-- A bucket that has keys of these classes only. -/
structure InodeBucket where
  map : Bucket
  keyed (k v : Bytes) : map.find? k = some v → ∃ q : InodeKey, q.key = k

/-! ## No two classes meet -/

theorem attr_key_injective {a b : String} (h : attr_key a = attr_key b) : a = b := by
  rw [attr_key, attr_key, as_bytes_append, as_bytes_append] at h
  exact as_bytes_injective (List.append_cancel_left h)

theorem attr_key_head (name : String) : (attr_key name).head? = some 0x61 := by
  rw [attr_key, as_bytes_append]
  rfl

theorem number_head (num : UInt32) :
    (generate_data_key_with_number num).head? = some 0x7a := by
  rw [generate_data_key_with_number_eq]
  rfl

theorem attr_key_ne_number (name : String) (num : UInt32) :
    attr_key name ≠ generate_data_key_with_number num := by
  intro h
  have hhead := attr_key_head name
  rw [h, number_head] at hhead
  exact absurd hhead (by decide)

/-- No namespace of the extended attributes begins like the attributes of the hooks. -/
theorem xattr_ne_attr_key {key : String} (h : IsXattr key) (name : String) :
    as_bytes key ≠ attr_key name := by
  obtain ⟨p, hp, hkey⟩ := xattr_starts h
  have hall : ∀ p ∈ xattr_prefixes, as_bytes p ≠ [] ∧ (as_bytes p).head? ≠ some 0x61 := by
    decide +kernel
  obtain ⟨hne, hhead⟩ := hall p hp
  obtain ⟨t, ht⟩ := List.isPrefixOf_iff_prefix.mp hkey
  intro he
  apply hhead
  rw [← attr_key_head name, ← he, ← ht, List.head?_append_of_ne_nil _ hne]

theorem xattr_ne_number {key : String} (h : IsXattr key) (num : UInt32) :
    as_bytes key ≠ generate_data_key_with_number num := by
  intro he
  apply (xattr_head h).2
  rw [he, number_head]

namespace InodeKey

/-- The prefix test picks out the entries. -/
theorem is_data_key_iff (q : InodeKey) :
    is_data_key q.key = true ↔ ∃ name, q = .entry name := by
  cases q with
  | entry name => simp [key]
  | slice num => simp [key]
  | attr name => simp [key, attr_key_not_data]
  | xattr name accepted => simp [key, xattr_not_data accepted]
  | field f fixed => simp [key]

/-- No key of another class begins like a slice. -/
theorem slice_of_begins {q : InodeKey} (h : as_bytes "zdata:" <+: q.key) :
    ∃ num, q = .slice num := by
  have hhead : q.key.head? = some 0x7a := by
    obtain ⟨t, ht⟩ := h
    rw [← ht]
    rfl
  cases q with
  | slice num => exact ⟨num, rfl⟩
  | entry name =>
    rw [key, generate_data_key_eq] at hhead
    exact absurd hhead (by simp)
  | attr name =>
    rw [key, attr_key_head] at hhead
    exact absurd hhead (by decide)
  | xattr name accepted => exact absurd hhead (xattr_head accepted).2
  | field f fixed => exact absurd h (field_not_slice f)

/-- Equal keys are of one class, and of one name or number there. -/
theorem key_injective {p q : InodeKey} (h : p.key = q.key) : p = q := by
  -- entries and slices are told apart by how they begin
  have hentry : (∃ name, p = .entry name) ↔ ∃ name, q = .entry name := by
    rw [← is_data_key_iff, ← is_data_key_iff, h]
  cases p with
  | entry a =>
    obtain ⟨b, rfl⟩ := hentry.mp ⟨a, rfl⟩
    rw [generate_data_key_injective h]
  | slice a =>
    have hbegins : as_bytes "zdata:" <+: q.key := by
      rw [← h]
      exact List.prefix_append _ _
    obtain ⟨b, rfl⟩ := slice_of_begins hbegins
    rw [generate_data_key_with_number_inj.mp h]
  | attr a =>
    cases q with
    | entry b => exact absurd (hentry.mpr ⟨b, rfl⟩) (by simp)
    | slice b => exact absurd h (attr_key_ne_number a b)
    | attr b => rw [attr_key_injective h]
    | xattr b accepted => exact absurd h.symm (xattr_ne_attr_key accepted a)
    | field f fixed => exact absurd h (attr_key_ne_field a f)
  | xattr a accepted =>
    cases q with
    | entry b => exact absurd (hentry.mpr ⟨b, rfl⟩) (by simp)
    | slice b => exact absurd h (xattr_ne_number accepted b)
    | attr b => exact absurd h (xattr_ne_attr_key accepted b)
    | xattr b accepted' =>
      cases as_bytes_injective h
      rfl
    | field f fixed => exact absurd h (xattr_ne_field accepted f)
  | field f fixed =>
    cases q with
    | entry b => exact absurd (hentry.mpr ⟨b, rfl⟩) (by simp)
    | slice b => exact absurd h (field_ne_number b f)
    | attr b => exact absurd h.symm (attr_key_ne_field b f)
    | xattr b accepted => exact absurd h.symm (xattr_ne_field accepted f)
    | field g fixed' =>
      cases Field.key_injective h
      rfl

/-- Between two slice keys stand slices only, those of the numbers between. -/
theorem mem_range_iff (q : InodeKey) (a b : UInt32) :
    (generate_data_key_with_number a ≤ q.key ∧ q.key < generate_data_key_with_number b) ↔
      ∃ num, q = .slice num ∧ a.toNat ≤ num.toNat ∧ num.toNat < b.toNat := by
  constructor
  · rintro ⟨hlo, hhi⟩
    obtain ⟨num, rfl⟩ := slice_of_begins (prefix_of_between hlo hhi)
    refine ⟨num, rfl, ?_, number_lt_iff.mp hhi⟩
    by_contra hlt
    exact absurd (number_lt_iff.mpr (not_le.mp hlt)) (not_lt.mpr hlo)
  · rintro ⟨num, rfl, hlo, hhi⟩
    refine ⟨not_lt.mp fun hlt => ?_, number_lt_iff.mpr hhi⟩
    exact absurd (number_lt_iff.mp hlt) (not_lt.mpr hlo)

end InodeKey

/-! ## The ranges of slices -/

/-- The keys of the slices `a..b`, in the order of their numbers. -/
def slice_keys (a b : UInt32) : List Bytes :=
  (List.range' a.toNat (b.toNat - a.toNat)).map slice_key

theorem mem_slice_keys {a b : UInt32} {k : Bytes} :
    k ∈ slice_keys a b ↔ ∃ num : UInt32, generate_data_key_with_number num = k ∧
      a.toNat ≤ num.toNat ∧ num.toNat < b.toNat := by
  have hb := b.toNat_lt
  simp only [slice_keys, List.mem_map, List.mem_range'_1]
  constructor
  · rintro ⟨i, hi, rfl⟩
    have hnum : (UInt32.ofNat i).toNat = i := by
      rw [UInt32.toNat_ofNat', Nat.mod_eq_of_lt (by omega)]
    exact ⟨UInt32.ofNat i, rfl, by omega, by omega⟩
  · rintro ⟨num, rfl, hlo, hhi⟩
    exact ⟨num.toNat, by omega, by rw [slice_key, UInt32.ofNat_toNat]⟩

theorem sorted_slice_keys (a b : UInt32) : (slice_keys a b).Pairwise (· < ·) := by
  have hb := b.toNat_lt
  rw [slice_keys, List.pairwise_map]
  refine (List.pairwise_lt_range' (s := a.toNat) (n := b.toNat - a.toNat)).imp_of_mem ?_
  intro i j hi hj hij
  rw [List.mem_range'_1] at hi hj
  exact (slice_key_lt (by omega) (by omega)).mpr hij

/-- A range of an inode bucket meets the stored slices of it, by number. -/
theorem InodeBucket.range_eq (B : InodeBucket) (a b : UInt32) :
    (B.map.range (generate_data_key_with_number a) (generate_data_key_with_number b)).map
      Prod.fst = (slice_keys a b).filter fun k => (B.map.find? k).isSome := by
  have hsorted := List.pairwise_map.mpr (B.map.sorted_range (generate_data_key_with_number a)
    (generate_data_key_with_number b))
  have hsorted' := (sorted_slice_keys a b).filter fun k => (B.map.find? k).isSome
  have hmem : ∀ k, k ∈ (B.map.range (generate_data_key_with_number a)
      (generate_data_key_with_number b)).map Prod.fst ↔
      k ∈ (slice_keys a b).filter fun k => (B.map.find? k).isSome := by
    intro k
    rw [List.mem_filter, mem_slice_keys, Option.isSome_iff_exists, List.mem_map]
    constructor
    · rintro ⟨⟨k, v⟩, hkv, rfl⟩
      obtain ⟨hv, hlo, hhi⟩ := OrdMap.mem_range.mp hkv
      obtain ⟨q, rfl⟩ := B.keyed k v hv
      obtain ⟨num, rfl, hnum⟩ := (q.mem_range_iff a b).mp ⟨hlo, hhi⟩
      exact ⟨⟨num, rfl, hnum⟩, v, hv⟩
    · rintro ⟨⟨num, rfl, hnum⟩, v, hv⟩
      obtain ⟨hlo, hhi⟩ := ((InodeKey.slice num).mem_range_iff a b).mpr ⟨num, rfl, hnum⟩
      exact ⟨(_, v), OrdMap.mem_range.mpr ⟨hv, hlo, hhi⟩, rfl⟩
  exact OrdMap.eq_of_pairwise (fun _ _ => lt_asymm) hsorted hsorted' hmem

/-! ## The partition -/

/-- The classes never meet, entries are told by their prefix and give back their names, slices
give back their numbers, and a range from slice to slice is the slices between in order. -/
theorem key_space_partitioned :
    (∀ p q : InodeKey, p.key = q.key ↔ p = q) ∧
      (∀ q : InodeKey, is_data_key q.key = true ↔ ∃ name, q = .entry name) ∧
      (∀ name, (after_colon (InodeKey.entry name).key).bind from_utf8 = some name) ∧
      (∀ num, (after_colon (InodeKey.slice num).key).bind common.u32 = some num) ∧
      (∀ (q : InodeKey) (a b : UInt32), ((InodeKey.slice a).key ≤ q.key ∧
          q.key < (InodeKey.slice b).key) ↔
        ∃ num, q = .slice num ∧ a.toNat ≤ num.toNat ∧ num.toNat < b.toNat) ∧
      ∀ (B : InodeBucket) (a b : UInt32),
        (B.map.range (InodeKey.slice a).key (InodeKey.slice b).key).map Prod.fst =
          (slice_keys a b).filter fun k => (B.map.find? k).isSome := by
  refine ⟨fun p q => ⟨InodeKey.key_injective, fun h => by rw [h]⟩, InodeKey.is_data_key_iff,
    fun name => ?_, fun num => ?_, InodeKey.mem_range_iff, InodeBucket.range_eq⟩
  · rw [InodeKey.key, after_colon_generate]
    exact from_utf8_as_bytes name
  · rw [InodeKey.key, after_colon_number]
    exact u32_be num

end dbfs2
