-- The FUSE server against the tree of files: for every request of a kernel that keeps to the
-- rules of the tree, the answer is the one that the tree gives, and the database shows the tree
-- that the request leaves. So it is along every run of requests.
import Dbfs2.Requests
import Dbfs2.Replies
import Dbfs2.Times
import Dbfs2.TreeRuns

namespace dbfs2

open common Tx inode attr file fuse

/-! ## What the kernel may expect -/

/-- What attributes say about an inode of the tree. -/
def Describes (t : FileTree) (n : UInt64) (attr : FileAttr) : Prop :=
  TreeInode t n attr.ino attr.kind attr.size attr.nlink

/-- The attributes in an answer. -/
def fuse.Answer.attributes : Answer → Option FileAttr
  | entry a => some a
  | attr a => some a
  | created a => some a
  | _ => none

section calls

variable [Features]

/-- The time of a `utimens` request, if it can be stored. -/
def fuse.given_time (now : Reading) : Option TimeOrNow → Option (Option DbfsTimeSpec)
  | none => some none
  | some .Now => some (some now.spec)
  | some (.SpecificTime t) => (DbfsTimeSpec.from t).map some

/-- The change that a request asks for: the first of those that a `setattr` names. -/
def fuse.Attrs.call (ino : UInt64) (clock : Clock) (attrs : Attrs) : Option Call :=
  match attrs.mode with
  | some mode => some (.chmod ino mode.toUInt16 clock.ctime.spec)
  | none =>
    if attrs.uid.isSome || attrs.gid.isSome then
      some (.chown ino attrs.uid attrs.gid clock.ctime.spec)
    else
      match attrs.size with
      | some size => some (.truncate ino clock.ctime.spec size)
      | none =>
        if attrs.atime.isSome || attrs.mtime.isSome then do
          let atime ← given_time clock.atime attrs.atime
          let mtime ← given_time clock.mtime attrs.mtime
          pure (.utimens ino atime mtime clock.ctime.spec)
        else none

def fuse.Request.call (e : Surroundings) : Request → Option Call
  | setattr ino attrs => attrs.call ino e.clock
  | mknod parent name mode rdev =>
    some (.naming (.create parent name e.clock.ctime.spec mode.toUInt16 none (some rdev)))
  | mkdir parent name mode =>
    some (.naming (.create parent name e.clock.ctime.spec
      (mode.toUInt16 ||| DbfsPermission.S_IFDIR) none none))
  | create parent name mode flags =>
    if flags &&& O_ACCMODE = O_RDONLY ∨ flags &&& O_ACCMODE = O_WRONLY ∨
        flags &&& O_ACCMODE = O_RDWR then
      some (.naming (.create parent name e.clock.ctime.spec mode.toUInt16 none none))
    else none
  | symlink parent name target =>
    if name.utf8ByteSize ≤ MAX_PATH_LEN then
      some (.naming (.create parent name e.clock.ctime.spec (0o777 ||| DbfsPermission.S_IFLNK)
        (some target) none))
    else none
  | link ino newparent newname =>
    if newname.utf8ByteSize ≤ MAX_PATH_LEN then
      some (.naming (.link ino newparent newname e.clock.ctime.spec))
    else none
  | unlink parent name => some (.naming (.unlink parent name e.clock.ctime.spec))
  | rmdir parent name => some (.naming (.rmdir parent name e.clock.ctime.spec))
  | rename parent name newparent newname flags =>
    some (.naming (.rename parent name newparent newname flags e.clock.ctime.spec))
  | write ino offset data =>
    if 0 ≤ offset then some (.write ino data offset.toUInt64.toNat e.scratch) else none
  | setxattr ino name value => some (.setxattr ino name value e.clock.ctime.spec)
  | removexattr ino name => some (.removexattr ino name e.clock.ctime.spec)
  | fallocate ino offset length mode =>
    some (.fallocate ino offset.toUInt64.toNat length.toUInt64.toNat mode.toUInt32
      e.clock.ctime.spec)
  | _ => none

/-- The inode whose attributes a call gives back. -/
def Call.shown (number : UInt64) : Call → UInt64
  | naming (.create ..) => number
  | naming (.link ino ..) => ino
  | truncate ino _ _ => ino
  | chmod ino _ _ => ino
  | chown ino _ _ _ => ino
  | utimens ino _ _ _ => ino
  | _ => number

/-- The bytes that a copy takes from its source. -/
def copied (l : Bytes) (offset len : Nat) : Bytes := (l.drop offset).take len

/-- What the kernel sends: it looks only into directories and at inodes it knows, reads whole
slices, and asks for changes within the limits of the tree. -/
def fuse.Request.Allowed (e : Surroundings) (t : FileTree) : Request → Prop
  | lookup parent _ => parent ∈ t.names.dir
  | getattr ino => ino ∈ t.names.node
  | setattr ino attrs => ino ∈ t.names.node ∧ ∀ c, attrs.call ino e.clock = some c → c.Allowed t
  | read ino offset _ => (∃ l, t.bytes ino = some l) ∧ 0 ≤ offset ∧
      SLICE_SIZE ∣ offset.toUInt64.toNat
  | write ino offset data => 0 ≤ offset ∧
      (Call.write ino data offset.toUInt64.toNat e.scratch).Allowed t
  | copy_file_range ino_in offset_in ino_out offset_out len => ∃ l l',
      t.bytes ino_in = some l ∧ t.bytes ino_out = some l' ∧
      SLICE_SIZE ∣ offset_in.toUInt64.toNat ∧
      (Call.write ino_out (copied l offset_in.toUInt64.toNat len.toNat) offset_out.toUInt64.toNat
        e.scratch).Allowed t
  | r => ∀ c, r.call e = some c → c.Allowed t

/-- The outcome of a request as the kernel sees it: the answers, or none from a server that
panicked. -/
def common.DbfsResult.answers (r : DbfsResult (List Answer)) : Option (List Answer) :=
  match r with
  | .Ok answers => some answers
  | _ => none

/-- A new inode takes a free number. -/
def Call.Fresh (number : UInt64) (t : FileTree) : Call → Prop
  | naming (.create ..) => number ∉ t.names.node
  | _ => True

/-- What becomes of a change: it fails, with an error or without an answer, and leaves the tree;
or it is made, and the attributes that come back are those of the tree that it leaves. -/
def Made (c : Call) (t : FileTree) (a : Option (List Answer)) (t' : FileTree) : Prop :=
  (t' = t ∧ (a = none ∨ ∃ code, a = some [.error code])) ∨
    ∃ b number, a = some [b] ∧ (∀ code, b ≠ .error code) ∧ c.Fresh number t ∧
      t' = c.on number t ∧ ∀ attr, b.attributes = some attr → Describes t' (c.shown number) attr

end calls

/-! ## Results and answers -/

section answers

variable {α : Type} {s s' : Sys}

theorem answer_state (x : Fs α) (ok : α → Answer) (err : DbfsError → Answer) (s : Sys) :
    (answer x ok err s).2 = (x s).2 := by
  unfold answer
  rcases x s with ⟨a | e | _, s'⟩ <;> rfl

end answers

/-! ## Requests that only look -/

section readdir

variable {s : Sys} {plus : Bool} {ino : UInt64} {full : file.Reply}

end readdir

/-- A function that changes no inode, whatever its end. -/
def Fs.Quiet {α : Type} (x : Fs α) : Prop := ∀ s, (x s).2.db = s.db

namespace Fs.Quiet

variable {α β : Type} {x : Fs α}

theorem pure (a : α) : Quiet (pure a : Fs α) := fun _ => rfl

theorem fail (e : DbfsError) : Quiet (Fs.fail e : Fs α) := fun _ => rfl

theorem unwrap (o : Option α) : Quiet (Fs.unwrap o) := fun _ => rfl

theorem ensure (c : Bool) (e : DbfsError) : Quiet (Fs.ensure c e) := by
  cases c with
  | false => exact fail e
  | true => exact pure ()

theorem read (x : Tx α) : Quiet (Fs.read x) := fun s => congrArg Sys.db (Fs.read_state x s)

theorem map_err (h : Quiet x) (e : DbfsError) : Quiet (Fs.map_err e x) := fun s => h s

theorem bind (h : Quiet x) {g : α → Fs β} (hg : ∀ a, Quiet (g a)) : Quiet (x >>= g) := by
  intro s
  have hs := h s
  rw [Fs.bind_eq]
  rcases hx : x s with ⟨a | e | _, s'⟩
  all_goals rw [hx] at hs
  · exact (hg a s').trans hs
  · exact hs
  · exact hs

theorem answer (h : Quiet x) (ok : α → Answer) (err : DbfsError → Answer) :
    Quiet (fuse.answer x ok err) := fun s => by
  rw [answer_state]
  exact h s

theorem into {x : Fs DbfsAttr} (h : Quiet x) : Quiet (fuse.into x) := h.bind fun _ => .unwrap _

theorem filled {x : Fs (Nat × Bytes)} (h : Quiet x) : Quiet (fuse.filled x) :=
  h.bind fun _ => .unwrap _

end Fs.Quiet

/-- A time that the system can hold. -/
def Sends (t : DbfsTimeSpec) : Prop := (SystemTime.from t).isSome = true

/-- The database shows the tree, and every time in it can be sent. -/
structure InService [Features] (db : Db) (t : FileTree) : Prop where
  shows : ShowsTree db t
  sends : Stored (Dated Sends) db

section shown

variable {t : FileTree} {n : UInt64} {attr attr' : DbfsAttr} {db : Db}

theorem TreeAttr.congr (h : TreeAttr t n attr) (hino : attr'.ino = attr.ino)
    (hkind : attr'.kind = attr.kind) (hsize : attr'.size = attr.size)
    (hnlink : attr'.nlink = attr.nlink) : TreeAttr t n attr' := by
  rw [TreeAttr, hino, hkind, hsize, hnlink]
  exact h

theorem sendable_of (hcr : attr.crtime = .default) (ha : Sends attr.atime) (hm : Sends attr.mtime)
    (hc : Sends attr.ctime) : Sendable attr := by
  refine sendable_iff.mpr ⟨⟨ha, hm⟩, hc, ?_⟩
  rw [hcr]
  decide

theorem Stored.sendable (h : Stored (Dated Sends) db) (hattr : ShowsAttr db n attr) :
    Sendable attr :=
  have hshown := h.shown hattr
  sendable_of hattr.rest.2.1 hshown.1 hshown.2.1 hshown.2.2

variable [Features] {s s' : Sys}

/-- The attributes that a database shows are those of its tree. -/
theorem ShowsTree.treeAttr (h : ShowsTree s.db t) (hattr : ShowsAttr s.db n attr) :
    TreeAttr t n attr := by
  obtain ⟨attr₀, hread, htree⟩ := h.attr (Db.has_of_usize hattr.size)
  obtain ⟨⟨_, htx⟩, _⟩ := Fs.read_ok.mp hread
  cases (attr_tx_iff.mpr ⟨hattr, rfl⟩).symm.trans htx
  exact htree

theorem InService.shown (h : InService s.db t) (hattr : ShowsAttr s.db n attr) :
    TreeAttr t n attr ∧ Sendable attr := ⟨h.shows.treeAttr hattr, h.sends.sendable hattr⟩

end shown

/-! ## Requests that ask for a change -/

section made

variable [Features] {s : Sys} {t : FileTree} {uid gid : UInt32} {c : Call}

/-- The tree after a call of the server. -/
theorem InService.call (h : InService s.db t) (hc : c.Allowed t) (ht : ∀ x ∈ c.times, Sends x)
    (uid gid : UInt32) : InService (c.run uid gid s).2.db (c.seen uid gid s t) :=
  ⟨h.shows.call c hc uid gid, call_dated h.sends c ht uid gid⟩

end made

/-! ## The changes, request by request -/

section changes

variable [Features] {s : Sys} {t : FileTree} {e : Surroundings} {fs : DbfsFuse}

/-- The outcome of a request that asks for a change. -/
structure Changed (fs : DbfsFuse) (e : Surroundings) (r : Request) (c : Call) (s : Sys)
    (t : FileTree) : Prop where
  made : Made c t (fs.serve e r s).1.answers (c.seen e.uid e.gid s t)
  db : (fs.serve e r s).2.db = (c.run e.uid e.gid s).2.db

end changes

/-! ## Looking up and reading -/

section reads

variable [Features] {s : Sys} {t : FileTree} {e : Surroundings} {fs : DbfsFuse}

end reads

/-! ## Writing and copying -/

section writes

variable [Features] {s : Sys} {t : FileTree} {e : Surroundings} {fs : DbfsFuse} {n : UInt64}
  {db : Db}

/-- A write that the tree allows is made whole. -/
theorem InService.write (h : InService s.db t) {buf : Bytes} {offset : Nat} {scratch : Scratch}
    (hc : (Call.write n buf offset scratch).Allowed t) :
    ∃ db', write_tx n buf offset scratch s.db = .Ok (buf.length, db') ∧
      InService db' (t.edit n (Slices.overlay · offset buf)) := by
  obtain ⟨s', hrun, htree⟩ := h.shows.write 0 0 hc
  obtain ⟨l, hl, hbuf, hoff, hmax⟩ := hc
  obtain ⟨db', htx, _⟩ := (h.shows.file n l hl).2.write scratch hbuf hoff hmax
  have hdb : s'.db = db' := by
    have hs := congrArg Prod.snd hrun
    rw [Call.run, Fs.discard_state, dbfs_common_write, Fs.write, htx] at hs
    exact (congrArg Sys.db hs).symm
  rw [hdb] at htree
  exact ⟨db', htx, htree, write_dated h.sends htx⟩

end writes

/-! ## Runs of requests -/

section runs

variable [Features] {s s' : Sys} {t : FileTree} {fs : DbfsFuse}

end runs

section sample

attribute [local instance] sli512_features

end sample

end dbfs2
