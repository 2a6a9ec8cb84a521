-- The list of the extended attributes of an inode (listxattr of attr.rs): one walk over
-- the bucket that copies a name with its 0 if there is room for both, and passes over it
-- if not. A caller is to learn the size of the whole list from an empty buffer.
import Dbfs2.Readdir
import Dbfs2.Xattr
import Dbfs2.RoundTrip

namespace dbfs2

open common Tx inode attr

/-! ## The call -/

namespace attr

/-- The test of the walk for an attribute. -/
def is_xattr_key (key : Bytes) : Bool :=
  starts_with key "user." || starts_with key "system." || starts_with key "trusted." ||
    starts_with key "security."

/-- A name and a 0 are copied behind the `size` bytes that are there, if there is room for both;
if not, the size goes back. -/
def copy_name (st : Nat × Bytes) (key : Bytes) : Nat × Bytes :=
  let tmp := st.1
  let size := tmp + (key.length + 1)
  if size ≤ st.2.length then
    (size, Slices.overlay (Slices.overlay st.2 tmp key) (size - 1) [0])
  else st

/-- The size and the buffer. -/
def listxattr_tx (ino : UInt64) (buf : Bytes) : Tx (Nat × Bytes) := do
  get_bucket ino
  let b ← bucket ino
  pure (b.entries.foldl (fun st x => if is_xattr_key x.1 then copy_name st x.1 else st) (0, buf))

/-- The requester is not looked at. -/
def dbfs_common_listxattr (_r_uid _r_gid : UInt32) (ino : UInt64) (buf : Bytes) :
    Fs (Nat × Bytes) := Fs.read (listxattr_tx ino buf)

end attr

/-! ## The list -/

/-- The names of the attributes of inode `n`, in key order. -/
structure XattrNames (db : Db) (n : UInt64) (names : List Bytes) : Prop where
  sorted : names.Pairwise (· < ·)
  mem (k : Bytes) : k ∈ names ↔ is_xattr_key k = true ∧ (db.get n k).isSome = true

/-- Each name with a 0 behind it. -/
def listing (names : List Bytes) : Bytes := names.flatMap (· ++ [0])

/-- The sum of all lengths, with one more byte for each name. -/
def listing_size (names : List Bytes) : Nat := (names.map (·.length + 1)).sum

theorem length_listing (names : List Bytes) : (listing names).length = listing_size names := by
  simp [listing, listing_size, List.length_flatMap]

/-- The names that the walk copies into `room` bytes: each one that fits behind those before
it. -/
def fitting : Nat → List Bytes → List Bytes
  | _, [] => []
  | room, name :: names =>
    if name.length + 1 ≤ room then name :: fitting (room - (name.length + 1)) names
    else fitting room names

theorem listing_size_fitting_le (names : List Bytes) (room : Nat) :
    listing_size (fitting room names) ≤ room := by
  induction names generalizing room with
  | nil => simp [fitting, listing_size]
  | cons name names ih =>
    unfold fitting
    split_ifs with hle
    · have := ih (room - (name.length + 1))
      simp only [listing_size, List.map_cons, List.sum_cons] at this ⊢
      omega
    · exact ih room

theorem fitting_of_le {names : List Bytes} {room : Nat} (h : listing_size names ≤ room) :
    fitting room names = names := by
  induction names generalizing room with
  | nil => rfl
  | cons name names ih =>
    simp only [listing_size, List.map_cons, List.sum_cons] at h
    rw [fitting, if_pos (by omega), ih (by unfold listing_size; omega)]

/-! ## The walk -/

theorem copy_names_eq (names : List Bytes) {size : Nat} {buf : Bytes} (h : size ≤ buf.length) :
    names.foldl copy_name (size, buf) =
      (size + listing_size (fitting (buf.length - size) names),
        Slices.overlay buf size (listing (fitting (buf.length - size) names))) := by
  induction names generalizing size buf with
  | nil => simp [fitting, listing, listing_size, Slices.overlay]
  | cons name names ih =>
    rw [List.foldl_cons, fitting]
    by_cases hfits : size + (name.length + 1) ≤ buf.length
    · have hcopy : copy_name (size, buf) name =
          (size + (name.length + 1), Slices.overlay buf size (name ++ [0])) := by
        simp only [copy_name, if_pos hfits]
        rw [← Slices.overlay_append h]
        rfl
      have hlen : (Slices.overlay buf size (name ++ [0])).length = buf.length := by
        rw [Slices.length_overlay h, List.length_append, List.length_singleton]
        omega
      rw [hcopy, ih (by omega), hlen, if_pos (by omega), ← Nat.sub_sub]
      generalize fitting (buf.length - size - (name.length + 1)) names = rest
      refine Prod.ext ?_ ?_
      · simp only [listing_size, List.map_cons, List.sum_cons]
        omega
      · have hpos : size + (name.length + 1) = size + (name ++ [0]).length := by simp
        simp only [hpos]
        rw [Slices.overlay_append h]
        rfl
    · have hcopy : copy_name (size, buf) name = (size, buf) := by
        simp only [copy_name, if_neg hfits]
      rw [hcopy, ih h, if_neg (by omega)]

theorem XattrNames.unique {db : Db} {n : UInt64} {names names' : List Bytes}
    (h : XattrNames db n names) (h' : XattrNames db n names') : names = names' :=
  OrdMap.eq_of_pairwise (fun _ _ => lt_asymm) h.sorted h'.sorted fun k =>
    (h.mem k).trans (h'.mem k).symm

/-- The names that the walk meets. -/
theorem xattrNames_of_bucket {db : Db} {n : UInt64} {b : Bucket} (hb : db.inodes.find? n = some b) :
    XattrNames db n ((b.entries.map Prod.fst).filter is_xattr_key) := by
  refine ⟨(List.pairwise_map.mpr b.sorted).filter _, fun k => ?_⟩
  have hget : db.get n k = b.find? k := by
    rw [Db.get, Store.get, hb]
    rfl
  rw [List.mem_filter, hget, and_comm, List.mem_map, Option.isSome_iff_exists]
  refine and_congr_right fun _ => ⟨?_, ?_⟩
  · rintro ⟨⟨k, v⟩, hmem, rfl⟩
    exact ⟨v, OrdMap.mem_entries.mp hmem⟩
  · rintro ⟨v, hv⟩
    exact ⟨(k, v), OrdMap.mem_entries.mpr hv, rfl⟩

/-- The whole of a call, for every buffer. -/
theorem listxattr_eq {s : Sys} {ino : UInt64} {names : List Bytes} (hn : s.db.Has ino)
    (hnames : XattrNames s.db ino names) (r_uid r_gid : UInt32) (buf : Bytes) :
    dbfs_common_listxattr r_uid r_gid ino buf s =
      (.Ok (listing_size (fitting buf.length names),
        Slices.overlay buf 0 (listing (fitting buf.length names))), s) := by
  obtain ⟨b, hb⟩ := Option.isSome_iff_exists.mp hn
  cases hnames.unique (xattrNames_of_bucket hb)
  have hwalk : b.entries.foldl (fun st x => if is_xattr_key x.1 then copy_name st x.1 else st)
      (0, buf) = ((b.entries.map Prod.fst).filter is_xattr_key).foldl copy_name (0, buf) := by
    rw [List.foldl_filter, List.foldl_map]
  have htx : listxattr_tx ino buf s.db = .Ok (((b.entries.map Prod.fst).filter
      is_xattr_key).foldl copy_name (0, buf), s.db) := by
    rw [← hwalk, listxattr_tx, bind_of_ok ((get_bucket_ok (u := ())).mpr ⟨hn, rfl⟩),
      bind_of_ok (Tx.bucket_ok.mpr ⟨hb, rfl⟩)]
    rfl
  rw [copy_names_eq _ (Nat.zero_le _), Nat.zero_add, Nat.sub_zero] at htx
  exact Fs.read_ok.mpr ⟨⟨s.db, htx⟩, rfl⟩

/-! ## The protocol -/

/-- An empty buffer asks for the size of the list, a sufficient one gets the list, and a shorter
one an error. -/
def ListsXattrs (s : Sys) (ino : UInt64) (names : List Bytes) (r_uid r_gid : UInt32)
    (buf : Bytes) : Prop :=
  if buf.length = 0 then
    ∃ b, dbfs_common_listxattr r_uid r_gid ino buf s = (.Ok (listing_size names, b), s)
  else if listing_size names ≤ buf.length then
    ∃ b, dbfs_common_listxattr r_uid r_gid ino buf s = (.Ok (listing_size names, b), s) ∧
      b.take (listing_size names) = listing names
  else ∃ e, dbfs_common_listxattr r_uid r_gid ino buf s = (.Err e, s)

/-- The protocol is kept exactly when the buffer holds the whole list. -/
theorem lists_xattrs_iff (s : Sys) (ino : UInt64) (names : List Bytes) (r_uid r_gid : UInt32)
    (buf : Bytes) (hn : s.db.Has ino) (hnames : XattrNames s.db ino names) :
    ListsXattrs s ino names r_uid r_gid buf ↔ listing_size names ≤ buf.length := by
  have heq := listxattr_eq hn hnames r_uid r_gid buf
  have hle := listing_size_fitting_le names buf.length
  unfold ListsXattrs
  rw [heq]
  split_ifs with hempty hroom
  · constructor
    · rintro ⟨b, hb⟩
      have hsize : listing_size (fitting buf.length names) = listing_size names := by
        simp only [Prod.mk.injEq, DbfsResult.Ok.injEq] at hb
        exact hb.1.1
      rwa [← hsize]
    · intro h
      rw [fitting_of_le h]
      exact ⟨_, rfl⟩
  · refine iff_of_true ?_ hroom
    rw [fitting_of_le hroom]
    refine ⟨_, rfl, ?_⟩
    rw [Slices.overlay, List.take_zero, List.nil_append, List.take_left' (length_listing names)]
  · refine iff_of_false ?_ hroom
    rintro ⟨e, he⟩
    cases he

section sample

attribute [local instance] sli512_features

/-- A new file with the attributes `user.long` and `user.z`. -/
def two_xattrs : Sys :=
  XattrCall.after 2 [.set 0 0 "user.long" [1] .default, .set 0 0 "user.z" [2] .default]
    with_new_file.2

def two_names : List Bytes := [as_bytes "user.long", as_bytes "user.z"]

theorem two_xattrs_names : two_xattrs.db.Has 2 ∧ XattrNames two_xattrs.db 2 two_names := by
  have hn : two_xattrs.db.Has 2 := by decide +kernel
  obtain ⟨b, hb⟩ := Option.isSome_iff_exists.mp hn
  have hkeys : (two_xattrs.db.inodes.find? 2).map (fun b => (b.entries.map Prod.fst).filter
      is_xattr_key) = some two_names := by decide +kernel
  rw [hb, Option.map_some, Option.some_inj] at hkeys
  exact ⟨hn, hkeys ▸ xattrNames_of_bucket hb⟩

/-- The list takes 17 bytes: an empty buffer is told 0, and seven bytes get the second name
alone. -/
theorem short_buffers_get_less :
    (dbfs_common_listxattr 0 0 2 [] two_xattrs).1 = .Ok (0, []) ∧
      ¬ ListsXattrs two_xattrs 2 two_names 0 0 [] ∧
      (dbfs_common_listxattr 0 0 2 (List.replicate 7 1) two_xattrs).1 =
        .Ok (7, as_bytes "user.z" ++ [0]) ∧
      ¬ ListsXattrs two_xattrs 2 two_names 0 0 (List.replicate 7 1) := by
  have hempty : (dbfs_common_listxattr 0 0 2 [] two_xattrs).1 = .Ok (0, []) := by decide +kernel
  have hshort : (dbfs_common_listxattr 0 0 2 (List.replicate 7 1) two_xattrs).1 =
      .Ok (7, as_bytes "user.z" ++ [0]) := by decide +kernel
  refine ⟨hempty, fun h => ?_, hshort, fun h => ?_⟩
  · obtain ⟨b, hb⟩ := h
    rw [hb] at hempty
    revert hempty
    simp +decide
  · obtain ⟨e, he⟩ := h
    rw [he] at hshort
    cases hshort

theorem seventeen_bytes_get_the_list :
    ListsXattrs two_xattrs 2 two_names 0 0 (List.replicate 17 1) :=
  (lists_xattrs_iff two_xattrs 2 two_names 0 0 (List.replicate 17 1) two_xattrs_names.1
    two_xattrs_names.2).mpr (by decide +kernel)

end sample

end dbfs2
