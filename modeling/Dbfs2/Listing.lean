-- Listing and lookup: what a listing shows is what lookup finds, in every directory
-- whose entries all have attributes that can be read. A device that was made without
-- a number has none, and lookup stops at it. A name that is absent is an error to lookup
-- and rename, and the calls that take names away stop there too.
import Dbfs2.Metadata
import Dbfs2.Readdir

namespace dbfs2

open common Tx inode attr file fs_type

/-! ## The keys of entries -/

/-- The key of every entry comes from a name. -/
def Named (db : Db) : Prop :=
  ∀ n k v, db.get n k = some v → is_data_key k = true → ∃ name, k = generate_data_key name

section runs

variable [Features] {s : Sys}

theorem create_named {n dir : UInt64} {name : String} {uid gid : UInt32} {t : DbfsTimeSpec}
    {permission : DbfsPermission} {target_path : Option String} {dev : Option UInt32}
    {r : UInt32 × DbfsPermission × UInt32 × Nat × Option UInt32} {db db' : Db} {k v : Bytes}
    (h : create_tx n dir name uid gid t permission target_path dev db = .Ok (r, db'))
    (hv : db'.get n k = some v) (hk : is_data_key k = true) :
    ∃ name, k = generate_data_key name := by
  obtain ⟨_, _, _, _, _, _, _, _, hnew⟩ := create_tx_spec h
  obtain ⟨_, _, _, _, _, _, _, hget⟩ := new_inode_tx_spec hnew
  rw [hget k fun f => ne_of_is_data_key hk (by simp), new_dots] at hv
  split_ifs at hv
  · simp at hv
    split_ifs at hv with h1 h2
    · exact ⟨"..", h1⟩
    · exact ⟨".", h2⟩
  · simp at hv

theorem naming_named (h : Named s.db) (hl : ∀ n, s.db.Has n → Laid s.db n) (call : NameCall)
    (uid gid : UInt32) : Named (call.run uid gid s).2.db := by
  intro n k v hv hk
  have hn' : (call.run uid gid s).2.db.Has n := Db.has_of_get hv
  have hlinks := links_of_laid hl
  by_cases hn : s.db.Has n
  · have hch := naming_changes (W := Wrote (2 ^ 64 - 1)) (fun _ _ => id) (.inl hlinks)
      (fits_max s.db) call (Call.fits_max (.naming call) s.db) uid gid
    by_cases hspares : (Call.naming call).Spares s n
    · rcases hch.get n k hspares hn' with he | hw
      · exact h n k v (he ▸ hv) hk
      · exact hw.2 hk
    · cases call with
      | create dir name t permission target_path dev =>
        obtain rfl := not_not.mp hspares
        rw [NameCall.run, Fs.discard_state, create_refused hn] at hv
        exact h _ k v hv hk
      | _ => exact absurd trivial hspares
  · obtain ⟨_, _, _, _, _, _, _, he, htx⟩ := call_new hlinks (.naming call) uid gid hn hn'
    cases he
    exact create_named htx hv hk

omit [Features] in
/-- What the VFS checks gives create a type code. -/
theorem typed_of_vfs {call : NameCall} {db : Db} (h : call.Vfs db) : call.Typed := by
  cases call with
  | create => exact h.2.2.2.2
  | _ => trivial

/-- The inodes of every run are in the layout, and the keys of their entries come from names. -/
theorem NameRun.laid {ok : NameCall → Prop} {db : Db} (h : NameRun ok db) :
    (∀ n, db.Has n → Laid db n) ∧ Named db := by
  obtain ⟨super_blk, uid, gid, ctime, hrun⟩ := h
  induction hrun with
  | refl =>
    refine ⟨fun n hn => ?_, fun n k v hv hk => ?_⟩
    · obtain rfl := (root_db_has ..).mp hn
      rw [root_db_eq]
      exact root_laid.1
    · rw [root_db_get super_blk uid gid ctime hk] at hv
      split_ifs at hv with hc
      exact ⟨".", hc.2⟩
  | tail _ hstep ih =>
    obtain ⟨call, uid, gid, number, table, hvfs, _⟩ := hstep
    refine ⟨?_, naming_named (s := ⟨_, number, table⟩) ih.2 ih.1 call uid gid⟩
    exact call_laid (s := ⟨_, number, table⟩) ih.1 (.naming call)
      (fun _ he => by cases he; exact typed_of_vfs hvfs) uid gid

end runs

/-! ## Agreement -/

section agreement

variable {s s' : Sys} {dir : UInt64} {es : List DbfsDirEntry}

/-- A listing shows what lookup finds, in the order of the names, with the offsets from 0 to the
stored size. -/
structure ListingAgrees (s : Sys) (dir : UInt64) (es : List DbfsDirEntry) : Prop where
  lookup (name : String) (ino : UInt64) (kind : DbfsFileType) :
    (∃ e ∈ es, e.name = name ∧ e.ino = ino ∧ e.kind = kind) ↔
      ∃ attr, (dbfs_common_lookup dir name s).1 = .Ok attr ∧ attr.ino = ino ∧ attr.kind = kind
  ordered : es.Pairwise fun e e' => as_bytes e.name < as_bytes e'.name
  offsets : ∃ n, s.db.usize dir .size = some n ∧ es.map (·.offset) = List.range n

theorem attr_tx_ino {n : UInt64} {a : DbfsAttr} {db db' : Db} (h : attr_tx n db = .Ok (a, db')) :
    a.ino = n :=
  (attr_tx_iff.mp h).1.rest.1

theorem lookup_ok {name : String} {attr : DbfsAttr} :
    (dbfs_common_lookup dir name s).1 = .Ok attr ↔
      ∃ i, s.db.entry dir name = some i ∧ attr_tx i s.db = .Ok (attr, s.db) := by
  have hfst : (dbfs_common_lookup dir name s).1 = .Ok attr ↔
      ∃ s', dbfs_common_lookup dir name s = (.Ok attr, s') :=
    ⟨fun h => ⟨_, Prod.ext h rfl⟩, fun ⟨_, h⟩ => congrArg Prod.fst h⟩
  rw [hfst]
  simp only [dbfs_common_lookup, dbfs_common_attr, Fs.bind_ok, Fs.read_ok, bind_ok, get_bucket_ok,
    get_kv_ok, Db.entry, Db.ref]
  constructor
  · rintro ⟨_, i, _, ⟨⟨_, _, _, ⟨_, rfl⟩, o, _, ⟨_, rfl, rfl⟩, hi⟩, rfl⟩, ⟨db', hattr⟩, rfl⟩
    rcases hv : Db.get _ dir (generate_data_key name) with _ | v
    · rw [hv] at hi
      simp at hi
    · rw [hv] at hi
      exact ⟨i, (unwrap_ok_iff.mp hi).1, (attr_tx_spec hattr).1 ▸ hattr⟩
  · rintro ⟨i, hi, hattr⟩
    obtain ⟨v, hv, hi⟩ := Option.bind_eq_some_iff.mp hi
    have hn := Db.has_of_get hv
    refine ⟨s, i, s, ⟨⟨s.db, (), s.db, ⟨hn, rfl⟩, some v, s.db, ⟨hn, hv.symm, rfl⟩, ?_⟩, rfl⟩,
      ⟨s.db, hattr⟩, rfl⟩
    exact unwrap_ok_iff.mpr ⟨hi, rfl⟩

/-- The entries of a listing are the entries of the directory. -/
theorem ListingOf.mem_iff {db : Db} {plus : Bool} {b : Bucket}
    (hb : db.inodes.find? dir = some b)
    (h : ListingOf db plus 0 (b.entries.filter (is_data_key ·.1)) es) {name : String}
    {ino : UInt64} {kind : DbfsFileType} :
    (∃ e ∈ es, e.name = name ∧ e.ino = ino ∧ e.kind = kind) ↔
      db.entry dir name = some ino ∧ db.kind ino = some kind := by
  have hget : ∀ k, db.get dir k = b.find? k := fun k => by
    simp [Db.get, Store.get, hb]
  constructor
  · rintro ⟨e, he, rfl, rfl, rfl⟩
    obtain ⟨⟨k, v⟩, hkv, hs⟩ := h.stored he
    have hfind := OrdMap.mem_entries.mp (List.mem_filter.mp hkv).1
    refine ⟨?_, hs.kind⟩
    rw [Db.entry, Db.ref, hget, ← hs.key, hfind]
    exact hs.value
  · rintro ⟨hentry, hkind⟩
    obtain ⟨v, hv, hi⟩ := Option.bind_eq_some_iff.mp hentry
    rw [hget] at hv
    have hmem : (generate_data_key name, v) ∈ b.entries.filter (is_data_key ·.1) :=
      List.mem_filter.mpr ⟨OrdMap.mem_entries.mpr hv, by simp⟩
    obtain ⟨e, he, hs⟩ := h.shown hmem
    obtain rfl : e.name = name := (generate_data_key_injective hs.key).symm
    obtain rfl := Option.some.inj (hs.value.symm.trans hi)
    exact ⟨e, he, rfl, rfl, Option.some.inj (hs.kind.symm.trans hkind)⟩

variable {db : Db}

/-- Every entry of a directory can be listed, with its attributes if they can be read. -/
theorem Names.shown {plus : Bool} {b : Bucket} (hnames : Names db)
    (hkinds : ∀ n, db.Has n → ∃ ty, db.kind n = some ty) (hnamed : Named db) (hdir : db.IsDir dir)
    (hb : db.inodes.find? dir = some b)
    (hattr : plus = true → ∀ name i, db.entry dir name = some i →
      ∃ a, attr_tx i db = .Ok (a, db))
    {kv : Bytes × Bytes} (hkv : kv ∈ b.entries.filter (is_data_key ·.1)) :
    ∃ e, Shows db plus kv e := by
  obtain ⟨k, v⟩ := kv
  obtain ⟨hmem, hk⟩ := List.mem_filter.mp hkv
  have hget : db.get dir k = some v := Store.get_eq_some.mpr ⟨b, hb, OrdMap.mem_entries.mp hmem⟩
  obtain ⟨name, rfl⟩ := hnamed dir k v hget hk
  obtain ⟨i, hi, hhas⟩ := hnames.entry hdir hget hk
  obtain ⟨ty, hkind⟩ := hkinds i hhas
  cases plus with
  | false => exact ⟨⟨i, 0, ty, name, none⟩, rfl, hi, hkind, rfl⟩
  | true =>
    have hentry : db.entry dir name = some i := by
      rw [Db.entry, Db.ref, hget]
      exact hi
    obtain ⟨a, ha⟩ := hattr rfl name i hentry
    exact ⟨⟨i, 0, ty, name, some a⟩, rfl, hi, hkind, a, ha, rfl⟩

variable [Features]

theorem Laid.kind {n : UInt64} (h : Laid db n) : ∃ ty, db.kind n = some ty := by
  obtain ⟨m, hm, ty, hty⟩ := h.mode
  refine ⟨ty, ?_⟩
  rw [Db.kind, hm]
  exact DbfsFileType.from_bits hty

/-- In every directory of every run, listing and lookup agree exactly when the attributes of all
entries can be read. -/
theorem listing_agrees_iff {ok : NameCall → Prop} (hrun : NameRun ok s.db)
    (hdir : s.db.IsDir dir) (hsaved : get_readdir_table s dir = none) (plus : Bool) :
    (∃ es, dbfs_common_readdir dir 0 plus s = (.Ok es, s) ∧ ListingAgrees s dir es) ↔
      ∀ name i, s.db.entry dir name = some i → AttrFits s.db i := by
  obtain ⟨hlaid, hnamed⟩ := hrun.laid
  have hnames := hrun.names.1
  obtain ⟨b, hb⟩ := Store.has_iff.mp (Db.has_of_isDir hdir)
  have htarget : ∀ name i, s.db.entry dir name = some i → Laid s.db i := by
    intro name i hi
    obtain ⟨v, hv, hi⟩ := Option.bind_eq_some_iff.mp hi
    obtain ⟨j, hj, hhas⟩ := hnames.entry hdir hv (by simp)
    obtain rfl := Option.some.inj (hj.symm.trans hi)
    exact hlaid j hhas
  constructor
  · rintro ⟨es, hread, hagrees⟩ name i hentry
    obtain ⟨_, b', hb', _, hl, _⟩ := readdir_ok.mp hread
    obtain rfl := Option.some.inj (hb.symm.trans hb')
    rw [hsaved] at hl
    obtain ⟨ty, hkind⟩ := (htarget name i hentry).kind
    obtain ⟨attr, hlookup, _⟩ := (hagrees.lookup name i ty).mp ((hl.mem_iff hb).mpr ⟨hentry, hkind⟩)
    obtain ⟨j, hj, hattr⟩ := lookup_ok.mp hlookup
    obtain rfl := Option.some.inj (hentry.symm.trans hj)
    exact (htarget name i hentry).attr_iff.mp ⟨attr, hattr⟩
  · intro hfits
    obtain ⟨es, hl⟩ : ∃ es, ListingOf s.db plus 0 (b.entries.filter (is_data_key ·.1)) es :=
      listing_exists (fun kv hkv => hnames.shown (fun n hn => (hlaid n hn).kind) hnamed hdir hb
        (fun _ name i hi => (htarget name i hi).attr_iff.mpr (hfits name i hi)) hkv) 0
    have hsize : s.db.usize dir .size = some es.length := by
      rw [hnames.consistent_dirs.size dir hdir, hl.length, Db.data_count, Store.count, hb,
        Option.map_some, Option.getD_some, OrdMap.count, List.countP_eq_length_filter]
    have hlt := Db.lt_of_usize hsize
    refine ⟨es, readdir_ok.mpr ⟨rfl, b, hb, ?_, ?_, .inr (by omega)⟩, ?_, ?_, es.length, hsize, ?_⟩
    · rw [hsaved]
      trivial
    · rw [hsaved]
      exact hl
    · intro name ino kind
      rw [hl.mem_iff hb]
      constructor
      · rintro ⟨hentry, hkind⟩
        obtain ⟨attr, hattr⟩ := (htarget name ino hentry).attr_iff.mpr (hfits name ino hentry)
        exact ⟨attr, lookup_ok.mpr ⟨ino, hentry, hattr⟩, attr_tx_ino hattr,
          Option.some.inj ((attr_tx_kind hattr).symm.trans hkind)⟩
      · rintro ⟨attr, hlookup, rfl, rfl⟩
        obtain ⟨i, hentry, hattr⟩ := lookup_ok.mp hlookup
        rw [attr_tx_ino hattr]
        exact ⟨hentry, attr_tx_kind hattr⟩
    · exact (hl.sorted (b.sorted.filter _)).imp generate_data_key_lt.mp
    · rw [hl.2, List.range_eq_range']

end agreement

/-! ## Names that are absent -/

/-- The calls that go by the name of an entry: a rename takes it for its source. -/
inductive EntryCall where
  | lookup
  | unlink (ino : Option UInt64) (c_time : DbfsTimeSpec)
  | rmdir (c_time : DbfsTimeSpec)
  | rename (new_dir : UInt64) (new_name : String) (flags : UInt32) (ctime : DbfsTimeSpec)

namespace EntryCall

/-- The call of a requester for a name of a directory. -/
def run (uid gid : UInt32) (dir : UInt64) (name : String) : EntryCall → Fs Unit
  | lookup => do
    let _ ← dbfs_common_lookup dir name
  | unlink ino c_time => dbfs_common_unlink uid gid dir name ino c_time
  | rmdir c_time => dbfs_common_rmdir uid gid dir name c_time
  | rename new_dir new_name flags ctime =>
    dbfs_common_rename uid gid dir name new_dir new_name flags ctime

/-- The calls that match on the entry they get. The other two unwrap it. -/
def Matches : EntryCall → Prop
  | lookup | rename .. => True
  | unlink .. | rmdir .. => False

end EntryCall

section absent

variable {s : Sys} {dir : UInt64} {name : String}

theorem lookup_absent (hn : s.db.Has dir) (hget : s.db.get dir (generate_data_key name) = none) :
    dbfs_common_lookup dir name s = (.Err .NotFound, s) := by
  rw [dbfs_common_lookup, Fs.bind_read, bind_of_ok (get_bucket_ok (u := ()).mpr ⟨hn, rfl⟩),
    bind_of_ok (get_kv_ok.mpr ⟨hn, hget.symm, rfl⟩)]
  rfl

theorem rename_absent (uid gid : UInt32) (new_dir : UInt64) (new_name : String) (flags : UInt32)
    (t : DbfsTimeSpec) (hn : s.db.Has dir)
    (hget : s.db.get dir (generate_data_key name) = none) :
    dbfs_common_rename uid gid dir name new_dir new_name flags t s = (.Err .NotFound, s) := by
  rw [dbfs_common_rename, Fs.bind_read, rename_old_tx,
    bind_of_ok (get_bucket_ok (u := ()).mpr ⟨hn, rfl⟩),
    bind_of_ok (get_kv_ok.mpr ⟨hn, hget.symm, rfl⟩)]
  rfl

theorem unlink_absent (uid gid : UInt32) (ino : Option UInt64) (t : DbfsTimeSpec)
    (hn : s.db.Has dir) (hget : s.db.get dir (generate_data_key name) = none) :
    dbfs_common_unlink uid gid dir name ino t s = (.Panic, s) := by
  rw [dbfs_common_unlink, Fs.write, unlink_tx,
    bind_of_ok (get_bucket_ok (u := ()).mpr ⟨hn, rfl⟩),
    bind_of_ok (get_kv_ok.mpr ⟨hn, hget.symm, rfl⟩)]
  rfl

theorem rmdir_absent (uid gid : UInt32) (t : DbfsTimeSpec) (hn : s.db.Has dir)
    (hget : s.db.get dir (generate_data_key name) = none) :
    dbfs_common_rmdir uid gid dir name t s = (.Panic, s) := by
  rw [dbfs_common_rmdir, Fs.write, rmdir_tx,
    bind_of_ok (get_bucket_ok (u := ()).mpr ⟨hn, rfl⟩),
    bind_of_ok (get_kv_ok.mpr ⟨hn, hget.symm, rfl⟩)]
  rfl

/-- In a directory whose entries all decode, a name that refers to nothing has no entry. -/
theorem Names.get_absent (h : Names s.db) (hdir : s.db.IsDir dir)
    (habsent : s.db.entry dir name = none) :
    s.db.get dir (generate_data_key name) = none := by
  rcases hv : s.db.get dir (generate_data_key name) with _ | v
  · rfl
  · obtain ⟨i, hi⟩ := h.decodes dir _ v hdir hv (by simp)
    rw [Db.entry, Db.ref, hv] at habsent
    exact absurd (habsent.symm.trans hi) (by simp)

/-- A call for an absent name gives the error, whoever asks, when it is one that matches on the
entry. -/
theorem absent_not_found_iff (h : Names s.db) (hdir : s.db.IsDir dir)
    (habsent : s.db.entry dir name = none) (call : EntryCall) (uid gid : UInt32) :
    call.run uid gid dir name s = (.Err .NotFound, s) ↔ call.Matches := by
  have hn := Db.has_of_isDir hdir
  have hget := h.get_absent hdir habsent
  cases call with
  | lookup => simp [EntryCall.run, EntryCall.Matches, Fs.bind_eq, lookup_absent hn hget]
  | unlink ino t => simp [EntryCall.run, EntryCall.Matches, unlink_absent uid gid ino t hn hget]
  | rmdir t => simp [EntryCall.run, EntryCall.Matches, rmdir_absent uid gid t hn hget]
  | rename new_dir new_name flags t =>
    simp [EntryCall.run, EntryCall.Matches,
      rename_absent uid gid new_dir new_name flags t hn hget]

attribute [local instance] sli512_features

def bare_root : Sys := start (root_db ∅ 0 0 .default)

theorem bare_root_names : Names bare_root.db := (root_db_names ∅ 0 0 .default).1

/-- The root of a new file system has no `f`, and the calls that would take it away stop. -/
theorem absent_name_panics :
    Names bare_root.db ∧ bare_root.db.IsDir 1 ∧ bare_root.db.entry 1 "f" = none ∧
      ((EntryCall.unlink none .default).run 0 0 1 "f" bare_root).1 = .Panic ∧
      ((EntryCall.rmdir .default).run 0 0 1 "f" bare_root).1 = .Panic :=
  ⟨bare_root_names, by decide +kernel, by decide +kernel, by decide +kernel, by decide +kernel⟩

/-- There a lookup and a rename of `f` find nothing. -/
theorem absent_name_not_found :
    EntryCall.lookup.run 7 7 1 "f" bare_root = (.Err .NotFound, bare_root) ∧
      (EntryCall.rename 1 "g" 0 .default).run 7 7 1 "f" bare_root =
        (.Err .NotFound, bare_root) := by
  have hdir : bare_root.db.IsDir 1 := by decide +kernel
  have habsent : bare_root.db.entry 1 "f" = none := by decide +kernel
  exact ⟨(absent_not_found_iff bare_root_names hdir habsent _ 7 7).mpr trivial,
    (absent_not_found_iff bare_root_names hdir habsent _ 7 7).mpr trivial⟩

end absent

/-! ## A device without a number -/

section sample

attribute [local instance] sli512_features

def mknod_c : NameCall :=
  .create 1 "c" .default (DbfsPermission.S_IFCHR ||| 0o644) none none

def with_device : Sys := ⟨after_calls [mknod_c], 3, ∅⟩

/-- The device is in the listing of names, and neither lookup nor the listing of attributes gets
past it. -/
theorem device_not_found :
    NameRun (fun _ => True) with_device.db ∧ with_device.db.IsDir 1 ∧
      get_readdir_table with_device 1 = none ∧
      (dbfs_common_readdir 1 0 false with_device).1 =
        .Ok [⟨1, 0, .Directory, ".", none⟩, ⟨2, 1, .CharDevice, "c", none⟩] ∧
      (dbfs_common_lookup 1 "c" with_device).1 = .Panic ∧
      (dbfs_common_readdir 1 0 true with_device).1 = .Panic ∧
      ∀ plus, ¬ ∃ es, dbfs_common_readdir 1 0 plus with_device = (.Ok es, with_device) ∧
        ListingAgrees with_device 1 es := by
  have hnames : (dbfs_common_readdir 1 0 false with_device).1 =
      .Ok [⟨1, 0, .Directory, ".", none⟩, ⟨2, 1, .CharDevice, "c", none⟩] := by decide +kernel
  have hlookup : (dbfs_common_lookup 1 "c" with_device).1 = .Panic := by decide +kernel
  have hplus : (dbfs_common_readdir 1 0 true with_device).1 = .Panic := by decide +kernel
  refine ⟨(after_no_calls _).after mknod_c ⟨by decide +kernel, by decide, by decide,
    by decide +kernel, .CharDevice, by decide⟩ trivial, by decide +kernel, rfl, hnames, hlookup,
    hplus, fun plus h => ?_⟩
  obtain ⟨es, hread, hagrees⟩ := h
  cases plus with
  | false =>
    rw [hread] at hnames
    cases hnames
    obtain ⟨attr, hattr, _⟩ := (hagrees.lookup "c" 2 .CharDevice).mp
      ⟨⟨2, 1, .CharDevice, "c", none⟩, by simp, rfl, rfl, rfl⟩
    rw [hlookup] at hattr
    cases hattr
  | true =>
    rw [hread] at hplus
    cases hplus

def create_colon : NameCall :=
  .create 1 "a:b" .default (DbfsPermission.S_IFREG ||| 0o644) none none

/-- A root with a directory and a file that has a colon in its name. -/
def several_names : Sys := ⟨after_calls [create_colon, mkdir_d], 4, ∅⟩

theorem several_names_run : NameRun (fun _ => True) several_names.db :=
  (mkdir_d_run trivial).after create_colon ⟨by decide +kernel, by decide, by decide,
    by decide +kernel, .RegularFile, by decide⟩ trivial

theorem several_names_fit {i : UInt64} (hi : several_names.db.Has i) :
    AttrFits several_names.db i := by
  have hall : several_names.db.inodes.entries.all
      (fun e => (attr_tx e.1 several_names.db).bind (fun _ => .Ok ()) == .Ok ()) = true := by
    decide +kernel
  obtain ⟨b, hb⟩ := Store.has_iff.mp hi
  have hread := List.all_eq_true.mp hall (i, b) (OrdMap.mem_entries.mpr hb)
  refine (several_names_run.laid.1 i hi).attr_iff.mp ?_
  rcases hattr : attr_tx i several_names.db with ⟨attr, db'⟩ | e | _
  · exact ⟨attr, by rw [(attr_tx_iff.mp hattr).2]⟩
  · simp [hattr, DbfsResult.bind] at hread
  · simp [hattr, DbfsResult.bind] at hread

theorem root_listing_agrees :
    ∃ es, dbfs_common_readdir 1 0 true several_names = (.Ok es, several_names) ∧
      ListingAgrees several_names 1 es ∧ es.map (·.name) = [".", "a:b", "d"] := by
  have hdir : several_names.db.IsDir 1 := by decide +kernel
  have hlist : ((dbfs_common_readdir 1 0 true several_names).1.bind fun es =>
      .Ok (es.map (·.name))) = .Ok [".", "a:b", "d"] := by decide +kernel
  obtain ⟨es, hread, hagrees⟩ := (listing_agrees_iff (s := several_names) several_names_run hdir
    rfl true).mpr fun name i hentry => by
      obtain ⟨v, hv, hi⟩ := Option.bind_eq_some_iff.mp hentry
      obtain ⟨j, hj, hhas⟩ := several_names_run.names.1.entry hdir hv (by simp)
      cases hj.symm.trans hi
      exact several_names_fit hhas
  rw [hread] at hlist
  exact ⟨es, hread, hagrees, DbfsResult.Ok.inj hlist⟩

end sample

end dbfs2
