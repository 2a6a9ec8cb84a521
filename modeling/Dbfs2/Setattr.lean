-- Setattr. One request may name a mode, an owner, a size and times at once, and each of them has
-- a call of its own; the request is answered by the first of these calls, and what else it named
-- is dropped.
import Dbfs2.Access
import Dbfs2.Replies
import Dbfs2.Serial

namespace dbfs2

open common Tx inode attr file

/-! ## System times -/

namespace common

/-- `std::time::SystemTime`: the seconds since the epoch, or before it, and the nanoseconds. -/
structure SystemTime where
  tv_sec : Int64
  tv_nsec : UInt32
  valid : tv_nsec.toNat < 10 ^ 9
  deriving DecidableEq

/-- There is no time before the epoch. -/
def DbfsTimeSpec.from (value : SystemTime) : Option DbfsTimeSpec :=
  if 0 ≤ value.tv_sec then some ⟨value.tv_sec.toUInt64, value.tv_nsec⟩ else none

/-- The sum of the epoch and a duration, which has to stay in range. -/
def SystemTime.from (value : DbfsTimeSpec) : Option SystemTime :=
  let sec := value.sec.toNat + value.nsec.toNat / 10 ^ 9
  if sec < 2 ^ 63 then
    some
      { tv_sec := Int64.ofNat sec, tv_nsec := value.nsec % 1000000000
        valid := by
          rw [UInt32.toNat_mod]
          exact Nat.mod_lt _ (by decide) }
  else none

/-- The attributes of the front end. -/
structure FileAttr where
  ino : UInt64
  size : Nat
  blocks : Nat
  atime : SystemTime
  mtime : SystemTime
  ctime : SystemTime
  crtime : SystemTime
  kind : DbfsFileType
  perm : UInt16
  nlink : UInt32
  uid : UInt32
  gid : UInt32
  rdev : UInt32
  blksize : UInt32
  flags : UInt32
  deriving DecidableEq

def FileAttr.from (value : DbfsAttr) : Option FileAttr := do
  let atime ← SystemTime.from value.atime
  let mtime ← SystemTime.from value.mtime
  let ctime ← SystemTime.from value.ctime
  let crtime ← SystemTime.from value.crtime
  pure
    { ino := value.ino, size := value.size, blocks := value.blocks, atime, mtime, ctime, crtime,
      kind := value.kind, perm := value.perm &&& 0o777, nlink := value.nlink, uid := value.uid,
      gid := value.gid, rdev := value.rdev, blksize := value.blksize, flags := 0 }

theorem toNat_lt_of_past {x : Int64} (h : 0 ≤ x) : x.toUInt64.toNat < 2 ^ 63 := by
  have hpast : 0 ≤ x.toBitVec.toInt := by
    have := Int64.le_iff_toInt_le.mp h
    rwa [Int64.toInt_zero] at this
  rw [BitVec.toInt_eq_toNat_cond] at hpast
  rw [← Int64.toNat_toBitVec]
  have := x.toBitVec.isLt
  split_ifs at hpast <;> omega

/-- A system time comes back from its stored form. -/
theorem SystemTime.from_time_spec {t : SystemTime} {spec : DbfsTimeSpec}
    (h : DbfsTimeSpec.from t = some spec) : SystemTime.from spec = some t := by
  unfold DbfsTimeSpec.from at h
  split_ifs at h with hpast
  cases h
  have hsec := toNat_lt_of_past hpast
  have hnsec : t.tv_nsec % 1000000000 = t.tv_nsec := by
    apply UInt32.toNat_inj.mp
    rw [UInt32.toNat_mod]
    exact Nat.mod_eq_of_lt t.valid
  have hback : Int64.ofNat t.tv_sec.toUInt64.toNat = t.tv_sec := by
    apply Int64.toBitVec_inj.mp
    simp
  simp only [SystemTime.from, Nat.div_eq_of_lt t.valid, Nat.add_zero, if_pos hsec, hback, hnsec]

end common

/-! ## The request -/

namespace fuse

/-- What `SystemTime::now()` gives, on a machine that is past the epoch. -/
structure Reading where
  time : SystemTime
  past : 0 ≤ time.tv_sec

def Reading.spec (now : Reading) : DbfsTimeSpec := ⟨now.time.tv_sec.toUInt64, now.time.tv_nsec⟩

/-- The readings of the clock in one request: for an access time and a modification time that are
to be set to now, and for the change itself. -/
structure Clock where
  atime : Reading
  mtime : Reading
  ctime : Reading

inductive TimeOrNow where
  | SpecificTime (t : SystemTime)
  | Now

/-- The fields that a request names. -/
structure Attrs where
  mode : Option UInt32 := none
  uid : Option UInt32 := none
  gid : Option UInt32 := none
  size : Option UInt64 := none
  atime : Option TimeOrNow := none
  mtime : Option TimeOrNow := none

def dbfs_fuse_chmod (uid gid : UInt32) (ino : UInt64) (mode : UInt32) (clock : Clock) :
    Fs DbfsAttr :=
  dbfs_common_chmod uid gid ino mode.toUInt16 clock.ctime.spec

def dbfs_fuse_chown (r_uid r_gid : UInt32) (ino : UInt64) (uid gid : Option UInt32)
    (clock : Clock) : Fs DbfsAttr :=
  dbfs_common_chown r_uid r_gid ino uid gid clock.ctime.spec

def dbfs_fuse_truncate [Features] (uid gid : UInt32) (ino size : UInt64) (clock : Clock) :
    Fs DbfsAttr :=
  dbfs_common_truncate uid gid ino clock.ctime.spec size

def time_of (now : Reading) : Option TimeOrNow → Fs (Option DbfsTimeSpec)
  | none => pure none
  | some .Now => pure (some now.spec)
  | some (.SpecificTime t) => do
    let t ← Fs.unwrap (DbfsTimeSpec.from t)
    pure (some t)

def dbfs_fuse_utimens (uid gid : UInt32) (ino : UInt64) (atime mtime : Option TimeOrNow)
    (clock : Clock) : Fs DbfsAttr := do
  let atime ← time_of clock.atime atime
  let mtime ← time_of clock.mtime mtime
  dbfs_common_utimens uid gid ino atime mtime clock.ctime.spec

inductive ReplyAttr where
  | attr (attr : FileAttr)
  | error (x : DbfsError)
  deriving DecidableEq

/-- The replies that are sent for the result of a call. A panic sends none. -/
def replied (call : Fs DbfsAttr) : Fs (List ReplyAttr) := fun s =>
  match call s with
  | (.Ok attr, s') =>
    ((DbfsResult.unwrap (FileAttr.from attr)).bind fun attr => .Ok [.attr attr], s')
  | (.Err x, s') => (.Ok [.error x], s')
  | (.Panic, s') => (.Panic, s')

/-- Only one of the four calls is made, and a request that names nothing gets no reply. -/
def setattr [Features] (r_uid r_gid : UInt32) (ino : UInt64) (req : Attrs) (clock : Clock) :
    Fs (List ReplyAttr) :=
  match req.mode with
  | some mode => replied (dbfs_fuse_chmod r_uid r_gid ino mode clock)
  | none =>
    if req.uid.isSome || req.gid.isSome then
      replied (dbfs_fuse_chown r_uid r_gid ino req.uid req.gid clock)
    else
      match req.size with
      | some size => replied (dbfs_fuse_truncate r_uid r_gid ino size clock)
      | none =>
        if req.atime.isSome || req.mtime.isSome then
          replied (dbfs_fuse_utimens r_uid r_gid ino req.atime req.mtime clock)
        else pure []

/-- The attributes can be sent: their times are system times. -/
def Sendable (attr : DbfsAttr) : Prop := (FileAttr.from attr).isSome

theorem sendable_iff {attr : DbfsAttr} : Sendable attr ↔
    ((SystemTime.from attr.atime).isSome ∧ (SystemTime.from attr.mtime).isSome) ∧
      (SystemTime.from attr.ctime).isSome ∧ (SystemTime.from attr.crtime).isSome := by
  unfold Sendable FileAttr.from
  cases SystemTime.from attr.atime <;> cases SystemTime.from attr.mtime <;>
    cases SystemTime.from attr.ctime <;> cases SystemTime.from attr.crtime <;> simp

theorem Reading.spec_from (now : Reading) : DbfsTimeSpec.from now.time = some now.spec :=
  if_pos now.past

theorem Reading.sendable (now : Reading) : (SystemTime.from now.spec).isSome := by
  rw [SystemTime.from_time_spec now.spec_from]
  rfl

end fuse

open fuse

/-! ## What a request asks for -/

/-- The request names a field. -/
def fuse.Attrs.Named (req : Attrs) : Prop :=
  req.mode.isSome ∨ req.uid.isSome ∨ req.gid.isSome ∨ req.size.isSome ∨ req.atime.isSome ∨
    req.mtime.isSome

section calls

variable {s s' : Sys} {n : UInt64} {attr : DbfsAttr}

/-! ## The calls of root -/

variable [Features] {r_gid : UInt32} {req : Attrs} {clock : Clock}

end calls

section sample

attribute [local instance] sli512_features

end sample

end dbfs2
