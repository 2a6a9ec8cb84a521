-- File contents (file.rs, and truncate and fallocate of inode.rs). A file is a size
-- and slices under "zdata:" keys; a read walks a range of keys, a write goes slice by
-- slice and lays new slices over memory that nobody has cleared.
import Dbfs2.Inode
import Dbfs2.Slices

namespace dbfs2

open common Tx inode

/-- `bucket.range(lo..hi)`. -/
def Tx.range (n : UInt64) (lo hi : Bytes) : Tx (List (Bytes × Bytes)) := fun db =>
  (DbfsResult.unwrap (db.inodes.find? n)).bind fun b => .Ok (b.range lo hi, db)

/-- The key of slice `num`, a number that is cast to `u32`. -/
def slice_key (num : Nat) : Bytes := generate_data_key_with_number (UInt32.ofNat num)

namespace file

/-! ## Reading -/

/-- `dst[dst_at..dst_at + len].copy_from_slice(&src[src_at..src_at + len])`; `none` is the panic
of a range out of bounds. -/
def copy_from_slice (dst : Bytes) (dst_at : Nat) (src : Bytes) (src_at len : Nat) : Option Bytes :=
  if dst_at + len ≤ dst.length ∧ src_at + len ≤ src.length then
    some (Slices.overlay dst dst_at ((src.drop src_at).take len))
  else none

/-- Copies what slice `index` gives to a read. The offset inside the slice comes from `offset`,
which the caller has already reduced to less than a slice. -/
def read_piece [Features] (size offset index : Nat) (value : Bytes) (st : Bytes × Nat) :
    Option (Bytes × Nat) :=
  let (buf, buf_offset) := st
  let current_size := index * SLICE_SIZE
  let value_offset := offset - current_size
  if current_size ≤ size ∧ buf_offset ≤ buf.length then
    let real_size := min (size - current_size) SLICE_SIZE
    let len := min (buf.length - buf_offset) (real_size - value_offset)
    (copy_from_slice buf buf_offset value value_offset len).map (·, buf_offset + len)
  else none

/-- The slices `from..upto` that are not stored read as zeros. -/
def read_holes [Features] (size offset first last : Nat) (st : Bytes × Nat) :
    Option (Bytes × Nat) :=
  (List.range' first (last - first)).foldlM
    (fun st i => read_piece size offset i (List.replicate SLICE_SIZE 0) st) st

/-- The walk over the stored slices. -/
def read_loop [Features] (size offset : Nat) :
    List (Bytes × Bytes) → Nat → Bytes × Nat → Option (Bytes × Nat)
  | [], _, st => some st
  | (key, value) :: rest, start_num, st => do
    let index ← (after_colon key).bind common.u32
    let index := index.toNat
    let (start_num, st) ←
      if index ≠ start_num then do
        let st ← read_holes size offset (start_num % 2 ^ 32) index st
        pure (index + 1, st)
      else pure (start_num, st)
    let st ← read_piece size offset index value st
    let start_num := start_num + 1
    if st.2 = st.1.length then some st else read_loop size offset rest start_num st

/-- The count and the buffer of a read. -/
def read_tx [Features] (number : UInt64) (buf : Bytes) (offset : Nat) : Tx (Nat × Bytes) := do
  get_bucket number
  let size ← read_usize number .size
  if size ≤ offset then pure (0, buf)
  else do
    let start_num := offset / SLICE_SIZE
    let upto ← add_usize offset buf.length
    let end_num := min (upto / SLICE_SIZE + 1) (size / SLICE_SIZE + 1)
    let data ← range number (slice_key start_num) (slice_key end_num)
    let (buf, buf_offset) ← unwrap (read_loop size (offset % SLICE_SIZE) data start_num (buf, 0))
    pure (buf_offset, buf)

def dbfs_common_read [Features] (number : UInt64) (buf : Bytes) (offset : Nat) :
    Fs (Nat × Bytes) := Fs.read (read_tx number buf offset)

/-! ## Writing -/

/-- The memory that the allocator gives to one write, slice by slice. It has the right length
and any contents. -/
structure Scratch [Features] where
  slice : Nat → Bytes
  length_slice (i : Nat) : (slice i).length = SLICE_SIZE

/-- What is stored for one slice. A full slice is taken from the buffer as it is; any other is
put together in scratch memory. A stored value that is too short would be read past its end. -/
def write_data [Features] (value : Option Bytes) (scratch : Bytes) (offset : Nat) (chunk : Bytes) :
    Option Bytes :=
  if chunk.length = SLICE_SIZE ∧ offset = 0 then some chunk
  else
    match value with
    | none => some (Slices.overlay scratch offset chunk)
    | some value =>
      if SLICE_SIZE ≤ value.length then
        some (value.take offset ++ chunk ++
          (value.drop (offset + chunk.length)).take (SLICE_SIZE - offset - chunk.length))
      else none

/-- The loop of a write: `rest` is what `buf` still holds from `count` on. One turn is made for
an empty buffer too. -/
def write_loop [Features] (number : UInt64) (scratch : Scratch) :
    Nat → Nat → Nat → Nat → Bytes → Tx Nat
  | 0, _, _, _, _ => unwrap none
  | fuel + 1, num, offset, count, rest => do
    let key := slice_key num
    let len := min rest.length (SLICE_SIZE - offset)
    let kv ← get_kv number key
    let data ← unwrap (write_data kv (scratch.slice num) offset (rest.take len))
    put number key data
    let count := count + len
    if len = rest.length then pure count
    else
      write_loop number scratch fuel (num + 1) ((offset + len) % SLICE_SIZE) count
        (rest.drop len)

def write_tx [Features] (number : UInt64) (buf : Bytes) (offset : Nat) (scratch : Scratch) :
    Tx Nat := do
  get_bucket number
  let size ← read_usize number .size
  let count ← write_loop number scratch (buf.length + 1) (offset / SLICE_SIZE)
    (offset % SLICE_SIZE) 0 buf
  let upto ← add_usize offset count
  let new_size := max size upto
  if size < new_size then put number Field.size.key (be_usize new_size) else pure ()
  pure count

def dbfs_common_write [Features] (number : UInt64) (buf : Bytes) (offset : Nat)
    (scratch : Scratch) : Fs Nat := Fs.write (write_tx number buf offset scratch)

/-! ## Opening and copying -/

def dbfs_common_open (ino : UInt64) (uid gid : UInt32) (access_mask : UInt16) : Fs Unit := do
  let attr ← Fs.map_err .NotFound (dbfs_common_attr ino)
  Fs.ensure (checkout_access attr.uid attr.gid attr.perm uid gid access_mask) .AccessError

def dbfs_common_copy_file_range [Features] (src : UInt64) (offset_src : Nat) (dest : UInt64)
    (offset_dest len : Nat) (ctime : DbfsTimeSpec) (scratch : Scratch) : Fs Nat := do
  let src_size ← Fs.read do
    get_bucket src
    read_usize src .size
  let buf := List.replicate (min (src_size - offset_src) len) 0
  let (read_size, buf) ← dbfs_common_read src buf offset_src
  let write_size ← dbfs_common_write dest (buf.take read_size) offset_dest scratch
  Fs.write do
    get_bucket dest
    put dest Field.ctime.key ctime.to_be_bytes
    put dest Field.mtime.key ctime.to_be_bytes
  pure write_size

end file

namespace inode

/-! ## Truncate and fallocate -/

def clear_suid_sgid (perm : DbfsPermission) : DbfsPermission :=
  let perm := perm.remove DbfsPermission.S_ISUID
  if perm.contains DbfsPermission.S_IXGRP then perm.remove DbfsPermission.S_ISGID else perm

/-- Deletes those of some slices that are stored. -/
def delete_slices (ino : UInt64) : List Nat → Tx Unit
  | [] => pure ()
  | i :: is => do
    let key := slice_key i
    let kv ← get_kv ino key
    if kv.isSome then delete ino key else pure ()
    delete_slices ino is

/-- Clears a stored slice from `offset` on. -/
def clear_slice [Features] (ino : UInt64) (num offset : Nat) : Tx Unit := do
  let key := slice_key num
  match ← get_kv ino key with
  | none => pure ()
  | some value =>
    assert (SLICE_SIZE ≤ value.length)
    put ino key
      (value.take offset ++ List.replicate (SLICE_SIZE - offset) 0 ++ value.drop SLICE_SIZE)

/-- Takes `gap` bytes off the free space. -/
def charge (gap : Nat) : Tx Unit := do
  unwrap_ok get_super_blk
  let disk_size ← sb_usize .disk_size
  ensure (gap ≤ disk_size) .NoSpace
  sb_put .disk_size (be_usize (disk_size - gap))

/-- Makes room for a file that grows into a later slice, or frees the slices that a cut at
`f_size` leaves behind. -/
def truncate_blocks [Features] (ino : UInt64) (f_size current_size : Nat) : Tx Unit := do
  let start := f_size / SLICE_SIZE
  let current_block := current_size / SLICE_SIZE
  if current_block < start then charge (f_size - current_size)
  else do
    delete_slices ino (List.range' (start + 1) (current_block - start))
    clear_slice ino start (f_size % SLICE_SIZE)
    unwrap_ok get_super_blk
    let disk_size ← sb_usize .disk_size
    let disk_size ← add_usize disk_size ((current_block - start) * SLICE_SIZE)
    sb_put .disk_size (be_usize disk_size)

/-- The write transaction of truncate. The size it starts from is in `attr`, which was read in
a transaction of its own. -/
def truncate_tx [Features] (ino : UInt64) (ctime : DbfsTimeSpec) (f_size : UInt64)
    (attr : DbfsAttr) : Tx DbfsAttr := do
  unwrap_ok (get_bucket ino)
  let f_size := f_size.toNat
  truncate_blocks ino f_size attr.size
  put ino Field.size.key (be_usize f_size)
  put ino Field.ctime.key ctime.to_be_bytes
  put ino Field.mtime.key ctime.to_be_bytes
  put ino Field.mode.key (be_u16 (clear_suid_sgid attr.perm))
  pure { attr with size := f_size, ctime, mtime := ctime, perm := clear_suid_sgid attr.perm }

/-- The first step of truncate: the attributes and the permission. -/
def truncate_attr (r_uid r_gid : UInt32) (ino : UInt64) : Fs DbfsAttr := do
  let attr ← Fs.map_err .NotFound (dbfs_common_attr ino)
  Fs.ensure (checkout_access attr.uid attr.gid attr.perm r_uid r_gid ACCESS_W_OK) .AccessError
  pure attr

def dbfs_common_truncate [Features] (r_uid r_gid : UInt32) (ino : UInt64) (ctime : DbfsTimeSpec)
    (f_size : UInt64) : Fs DbfsAttr := do
  let attr ← truncate_attr r_uid r_gid ino
  Fs.write (truncate_tx ino ctime f_size attr)

def FALLOC_FL_KEEP_SIZE : UInt32 := 0x01

/-- Sets the size of the file after the room for it was made, unless it is to be kept. -/
def fallocate_size (ino : UInt64) (f_size i_size : Nat) (mode : UInt32) (ctime : DbfsTimeSpec) :
    Tx Unit :=
  if mode &&& FALLOC_FL_KEEP_SIZE = 0 then do
    put ino Field.ctime.key ctime.to_be_bytes
    put ino Field.mtime.key ctime.to_be_bytes
    if i_size < f_size then put ino Field.size.key (be_usize f_size) else pure ()
  else pure ()

def fallocate_tx [Features] (r_uid r_gid : UInt32) (ino : UInt64) (offset size : Nat)
    (mode : UInt32) (ctime : DbfsTimeSpec) : Tx Unit := do
  unwrap_ok (get_bucket ino)
  let uid ← read_u32 ino .uid
  let gid ← read_u32 ino .gid
  let perm ← read_u16 ino .mode
  let i_size ← read_usize ino .size
  ensure (checkout_access uid gid perm r_uid r_gid ACCESS_W_OK) .AccessError
  let f_size ← add_usize offset size
  if i_size / SLICE_SIZE < f_size / SLICE_SIZE then charge (f_size - i_size) else pure ()
  fallocate_size ino f_size i_size mode ctime

def dbfs_common_fallocate [Features] (r_uid r_gid : UInt32) (ino : UInt64) (offset size : Nat)
    (mode : UInt32) (ctime : DbfsTimeSpec) : Fs Unit :=
  Fs.write (fallocate_tx r_uid r_gid ino offset size mode ctime)

end inode

end dbfs2
