-- The file system as its callers know it: a graph of names, and a list of bytes for every
-- regular file. Here is what it means that the database shows such a tree, what a call does to
-- it, and what a call on one inode leaves of it.
import Dbfs2.Listing
import Dbfs2.RoundTrip
import Dbfs2.Xattr
import Dbfs2.NameSteps

namespace dbfs2

open common Tx inode attr file

/-! ## Trees -/

/-- Names over inodes, and the bytes of the regular files among them. -/
structure FileTree where
  names : NameGraph UInt64 Bytes
  bytes : UInt64 → Option Bytes

namespace FileTree

open Classical in
/-- The tree with other names. An inode that is gone takes its bytes along. -/
noncomputable def with_names (t : FileTree) (g : NameGraph UInt64 Bytes) : FileTree :=
  ⟨g, fun n => if n ∈ g.node then t.bytes n else none⟩

theorem with_names_bytes (t : FileTree) {g : NameGraph UInt64 Bytes} {n : UInt64}
    (hn : n ∈ g.node) : (t.with_names g).bytes n = t.bytes n := if_pos hn

def edit (t : FileTree) (n : UInt64) (f : Bytes → Bytes) : FileTree :=
  { t with bytes := Function.update t.bytes n ((t.bytes n).map f) }

theorem edit_id (t : FileTree) (n : UInt64) : t.edit n id = t := by
  simp only [edit, Option.map_id_fun, id, Function.update_eq_self]

end FileTree

/-- The new bytes that a naming call brings: a new regular file is empty. -/
def inode.NameCall.fill (number : UInt64) (bytes : UInt64 → Option Bytes) :
    NameCall → UInt64 → Option Bytes
  | create _ _ _ permission _ _ =>
    if permission &&& DbfsPermission.S_IFMT = DbfsPermission.S_IFREG then
      Function.update bytes number (some [])
    else bytes
  | _ => bytes

section calls

variable [Features]

/-- What a call does to a tree. A new inode gets the given number. -/
noncomputable def Call.on (number : UInt64) (t : FileTree) : Call → FileTree
  | naming call =>
    FileTree.with_names ⟨t.names, call.fill number t.bytes⟩ (call.on number t.names)
  | unlink_ino dir name _ c_time =>
    t.with_names ((NameCall.unlink dir name c_time).on number t.names)
  | write ino buf offset _ => t.edit ino (Slices.overlay · offset buf)
  | truncate ino _ f_size => t.edit ino (·.take f_size.toNat)
  | _ => t

/-- A naming call that a kernel makes: it has looked up the names of the call, so that it links
and unlinks no directory, takes only free names, and removes only directories. -/
def inode.NameCall.Allowed (g : NameGraph UInt64 Bytes) : NameCall → Prop
  | create dir name _ permission target_path dev => dir ∈ g.dir ∧ name ≠ "." ∧ name ≠ ".." ∧
      g.edge dir (generate_data_key name) = none ∧ g.size dir + 1 ≤ MAX_SIZE ∧
      ∃ ty : DbfsFileType, permission &&& DbfsPermission.S_IFMT = ty.bits ∧
        (IsDevice ty → dev.isSome = true) ∧
        ∀ target, target_path = some target → target.utf8ByteSize ≤ MAX_SIZE
  | link ino new_ino name _ => new_ino ∈ g.dir ∧ ino ∉ g.dir ∧ name ≠ "." ∧ name ≠ ".." ∧
      g.edge new_ino (generate_data_key name) = none ∧ g.size new_ino + 1 ≤ MAX_SIZE
  | unlink dir name _ => dir ∈ g.dir ∧ name ≠ "." ∧ name ≠ ".." ∧
      ∀ i, g.edge dir (generate_data_key name) = some i → i ∉ g.dir
  | rmdir p_ino name _ => p_ino ∈ g.dir ∧ name ≠ "." ∧ name ≠ ".." ∧
      ∀ i, g.edge p_ino (generate_data_key name) = some i → i ∈ g.dir
  | rename old_dir old_name new_dir new_name flags _ => old_dir ∈ g.dir ∧ new_dir ∈ g.dir ∧
      old_name ≠ "." ∧ old_name ≠ ".." ∧ new_name ≠ "." ∧ new_name ≠ ".." ∧
      g.edge new_dir (generate_data_key new_name) = none ∧ g.size new_dir + 1 ≤ MAX_SIZE ∧
      flags = 0

/-- A call within the limits of the code: a write leaves no gap behind the end and no more than
the slices can hold, and no call but a write makes a file longer. -/
def Call.Allowed (t : FileTree) : Call → Prop
  | naming call => call.Allowed t.names
  | unlink_ino dir name ino _ => dir ∈ t.names.dir ∧ name ≠ "." ∧ name ≠ ".." ∧
      t.names.edge dir (generate_data_key name) = some ino ∧ ino ∉ t.names.dir
  | write ino buf offset _ => ∃ l, t.bytes ino = some l ∧ buf ≠ [] ∧ offset ≤ l.length ∧
      (Slices.overlay l offset buf).length < (2 ^ 32 - 1) * SLICE_SIZE
  | truncate ino _ f_size => ∃ l, t.bytes ino = some l ∧ f_size.toNat ≤ l.length
  | fallocate ino offset size mode _ => ∃ l, t.bytes ino = some l ∧
      (mode &&& FALLOC_FL_KEEP_SIZE = 0 → offset + size ≤ l.length)
  | _ => True

/-- The database shows a tree. -/
structure ShowsTree (db : Db) (t : FileTree) : Prop where
  names : Names db
  named : Named db
  readable : Readable db
  graph : db.graph = t.names
  file (n : UInt64) (l : Bytes) : t.bytes n = some l →
    db.kind n = some .RegularFile ∧ Holds db n l
  rest (n : UInt64) : t.bytes n = none → db.kind n ≠ some .RegularFile

end calls

/-! ## What keeps the tree -/

section frames

variable [Features] {db db' : Db} {n : UInt64} {l : Bytes}

theorem Holds.of_slices (h : Holds db n l) (hsize : db'.usize n .size = db.usize n .size)
    (hslices : db'.slices n = db.slices n) (hkeys : SliceKeys db' n) : Holds db' n l where
  dense :=
    { size_eq := hsize.trans h.dense.size_eq
      bound := h.dense.bound
      present := by
        rw [hslices]
        exact h.dense.present
      keys := hkeys }
  whole := by
    rw [hslices]
    exact h.whole
  bytes := by
    rw [hslices]
    exact h.bytes

/-- The bytes of a file are its size and what stands under the keys of slices. -/
theorem Holds.congr (h : Holds db n l)
    (hget : ∀ k, k = Field.size.key ∨ as_bytes "zdata:" <+: k → db'.get n k = db.get n k) :
    Holds db' n l := by
  refine h.of_slices ?_ (slices_congr fun i => hget _ (.inr ?_)) fun k v hv hk => ?_
  · rw [Db.usize, Db.usize, hget _ (.inl rfl)]
  · exact List.prefix_append ..
  · rw [hget k (.inr hk)] at hv
    exact h.dense.keys k v hv hk

/-- The part of a file before a shorter end. -/
theorem Holds.cut (h : Holds db n l) {m : Nat} (hm : m ≤ l.length)
    (hsize : db'.usize n .size = some m)
    (hslices : db'.slices n = Slices.cut SLICE_SIZE 0 l.length m (db.slices n))
    (hkeys : SliceKeys db' n) : Holds db' n (l.take m) := by
  have hS := SLICE_SIZE_pos
  have hlen : (l.take m).length = m := by
    rw [List.length_take]
    omega
  refine ⟨⟨by rw [hlen, hsize], ?_, fun i hi => ?_, hkeys⟩, ?_, fun p hp => ?_⟩
  · rw [hlen]
    exact Nat.lt_of_le_of_lt hm h.dense.bound
  · rw [hlen] at hi
    obtain ⟨v, hv, _⟩ := h.dense.present i (by omega)
    obtain ⟨w, hw⟩ := Slices.cut_isSome hS hv hi
    rw [hslices]
    exact ⟨w, hw, Slices.whole_cut hS h.whole i w hw⟩
  · rw [hslices]
    exact Slices.whole_cut hS h.whole
  · rw [hlen] at hp
    rw [hslices, Slices.get_cut_of_lt hS h.whole hp, h.bytes p (by omega),
      List.getElem?_take_of_lt hp]

end frames

/-! ## Calls that leave the names -/

/-- Whatever the names and their counts are made of stands as it was. -/
structure NamesKept (db db' : Db) : Prop where
  has (n : UInt64) : db'.Has n ↔ db.Has n
  kind (n : UInt64) : db'.kind n = db.kind n
  get (n : UInt64) (k : Bytes) : is_data_key k = true ∨ k = Field.hard_links.key ∨
    k = Field.size.key ∧ db.IsDir n → db'.get n k = db.get n k

namespace NamesKept

variable {db db' : Db}

theorem isDir (h : NamesKept db db') (n : UInt64) : db'.IsDir n ↔ db.IsDir n := by
  rw [Db.IsDir, Db.IsDir, h.kind]

theorem graph (h : NamesKept db db') : db'.graph = db.graph := by
  refine graph_ext (g := db.graph) h.has h.isDir (fun n k hn hk => ?_) fun n k i he => ?_
  · rw [Db.ref, h.get n k (.inl hk), Db.graph_edge ((h.isDir n).mp hn) hk]
    rfl
  · obtain ⟨hn, hk, _⟩ := Db.graph_edge_some he
    exact ⟨(h.isDir n).mpr hn, hk⟩

theorem names (h : NamesKept db db') (hnames : Names db) : Names db' where
  wf := by
    rw [h.graph]
    exact hnames.wf
  decodes n k v hn hv hk := by
    rw [h.get n k (.inl hk)] at hv
    exact hnames.decodes n k v ((h.isDir n).mp hn) hv hk
  size n hn := by
    have hn' := (h.isDir n).mp hn
    rw [Db.usize, h.get n _ (.inr (.inr ⟨rfl, hn'⟩)), h.graph]
    exact hnames.size n hn'
  links i hi hd := by
    rw [Db.u32, h.get i _ (.inr (.inl rfl)), h.graph]
    exact hnames.links i ((h.has i).mp hi) fun e => hd ((h.isDir i).mpr e)

theorem named (h : NamesKept db db') (hnamed : Named db) : Named db' := fun n k v hv hk =>
  hnamed n k v (by rw [← h.get n k (.inl hk), hv]) hk

end NamesKept

section content

variable [Features] {db db' : Db} {n : UInt64} {l : Bytes} {t : FileTree}

/-- A call on one inode that keeps the names. The bytes of the inode are the ones it then
holds. -/
theorem ShowsTree.of_same (h : ShowsTree db t) (hsame : NamesKept db db')
    (hreadable : Readable db') (hothers : ∀ m k, m ≠ n → db'.get m k = db.get m k)
    {f : Bytes → Bytes} (hfile : ∀ l, t.bytes n = some l → Holds db' n (f l)) :
    ShowsTree db' (t.edit n f) where
  names := hsame.names h.names
  named := hsame.named h.named
  readable := hreadable
  graph := hsame.graph.trans h.graph
  file m l hl := by
    rw [hsame.kind]
    by_cases hm : m = n
    · subst hm
      simp only [FileTree.edit, Function.update_self] at hl
      obtain ⟨l₀, hl₀, rfl⟩ := Option.map_eq_some_iff.mp hl
      exact ⟨(h.file m l₀ hl₀).1, hfile l₀ hl₀⟩
    · simp only [FileTree.edit, Function.update_of_ne hm] at hl
      exact ⟨(h.file m l hl).1, (h.file m l hl).2.congr fun k _ => hothers m k hm⟩
  rest m hm := by
    rw [hsame.kind]
    by_cases hmn : m = n
    · subst hmn
      simp only [FileTree.edit, Function.update_self, Option.map_eq_none_iff] at hm
      exact h.rest m hm
    · simp only [FileTree.edit, Function.update_of_ne hmn] at hm
      exact h.rest m hm

/-- Such a call that leaves the bytes leaves the tree. -/
theorem ShowsTree.kept (h : ShowsTree db t) (hsame : NamesKept db db')
    (hreadable : Readable db') (hothers : ∀ m k, m ≠ n → db'.get m k = db.get m k)
    (hfile : ∀ k, k = Field.size.key ∨ as_bytes "zdata:" <+: k → db'.get n k = db.get n k) :
    ShowsTree db' t := by
  rw [← t.edit_id n]
  exact h.of_same hsame hreadable hothers fun l hl => (h.file n l hl).2.congr hfile

theorem kind_kept {B : Nat} (h : Laid db n) (hk : Kept B n db db') : db'.kind n = db.kind n := by
  obtain ⟨m, hm, ty, hty⟩ := h.mode
  obtain ⟨m', hm', htype⟩ := hk.mode m hm
  rw [Db.kind, Db.kind, hm, hm', Option.bind_some, Option.bind_some, DbfsFileType.from_bits hty,
    DbfsFileType.from_bits (htype.trans hty)]

end content

/-! ## Calls on one inode -/

/-- Nothing changes but values of inode `n` under keys of a class. -/
structure Only (K : Bytes → Prop) (n : UInt64) (db db' : Db) : Prop where
  has (m : UInt64) : db'.Has m ↔ db.Has m
  get (m : UInt64) (k : Bytes) : (m = n → ¬ K k) → db'.get m k = db.get m k

/-- The keys of a file that no naming call reads: the fields but the link count, and the
slices. -/
def FileKey (k : Bytes) : Prop := (∃ f : Field, f ≠ .hard_links ∧ k = f.key) ∨ ∃ i, k = slice_key i

/-- The keys of what an inode is given beside its bytes: fields and extended attributes. -/
def AttrKey (k : Bytes) : Prop := (∃ f : Field, f ≠ .hard_links ∧ f ≠ .size ∧ k = f.key) ∨
  ∃ key, IsXattr key ∧ k = as_bytes key

theorem FileKey.other {k : Bytes} (h : FileKey k) :
    is_data_key k = false ∧ k ≠ Field.hard_links.key := by
  rcases h with ⟨f, hf, rfl⟩ | ⟨i, rfl⟩
  · exact ⟨is_data_key_field f, fun e => hf (Field.key_injective e)⟩
  · exact ⟨is_data_key_number _, (field_ne_slice_key _ i).symm⟩

theorem AttrKey.other {k : Bytes} (h : AttrKey k) :
    is_data_key k = false ∧ k ≠ Field.hard_links.key := by
  rcases h with ⟨f, hf, _, rfl⟩ | ⟨key, hkey, rfl⟩
  · exact ⟨is_data_key_field f, fun e => hf (Field.key_injective e)⟩
  · exact ⟨xattr_not_data hkey, xattr_ne_field hkey _⟩

theorem AttrKey.not_content {k : Bytes} (h : AttrKey k) :
    k ≠ Field.size.key ∧ ¬ as_bytes "zdata:" <+: k := by
  rcases h with ⟨f, _, hf, rfl⟩ | ⟨key, hkey, rfl⟩
  · exact ⟨fun e => hf (Field.key_injective e), field_not_slice f⟩
  · refine ⟨xattr_ne_field hkey _, fun ⟨rest, hrest⟩ => (xattr_head hkey).2 ?_⟩
    rw [← hrest]
    rfl

section only

variable {K : Bytes → Prop} {db db' : Db} {n : UInt64}

theorem Only.refl (K : Bytes → Prop) (n : UInt64) (db : Db) : Only K n db db :=
  ⟨fun _ => Iff.rfl, fun _ _ _ => rfl⟩

theorem Only.put (h : Only K n db db') {k : Bytes} (hk : K k) (v : Bytes) :
    Only K n db (db'.put n k v) where
  has m := by rw [Db.has_put, h.has]
  get m k' hk' := by
    rw [Db.get_put, if_neg]
    · exact h.get m k' hk'
    · rintro ⟨rfl, rfl, _⟩
      exact hk' rfl hk

theorem Only.puts (h : Only K n db db') {kvs : List (Bytes × Bytes)} (hk : ∀ kv ∈ kvs, K kv.1) :
    Only K n db (db'.puts n kvs) := by
  induction kvs generalizing db' with
  | nil => exact h
  | cons kv kvs ih =>
    exact ih (h.put (hk kv List.mem_cons_self) kv.2) fun kv' hkv' =>
      hk kv' (List.mem_cons_of_mem _ hkv')

theorem fileKey {f : Field} (h : f ≠ .hard_links) : FileKey f.key := .inl ⟨f, h, rfl⟩

theorem attrKey {f : Field} (h : f ≠ .hard_links ∧ f ≠ .size) : AttrKey f.key :=
  .inl ⟨f, h.1, h.2, rfl⟩

theorem SlicesOnly.only (h : SlicesOnly n db db') : Only FileKey n db db' :=
  ⟨h.has, fun m k hk => h.get m k fun e i hi => hk e (.inr ⟨i, hi⟩)⟩

theorem ContentOnly.only (h : ContentOnly n db db') : Only FileKey n db db' :=
  ⟨h.has, fun m k hk => h.get m k fun e => ⟨fun hs => hk e (.inl ⟨.size, by decide, hs⟩),
    fun i hi => hk e (.inr ⟨i, hi⟩)⟩⟩

theorem chmodded_only (mode : DbfsPermission) (t : DbfsTimeSpec) :
    Only AttrKey n db (chmodded db n mode t) :=
  ((Only.refl _ n db).put (attrKey (by decide)) _).put (attrKey (by decide)) _

theorem chowned_only (uid gid : UInt32) (mode : DbfsPermission) (t : DbfsTimeSpec) :
    Only AttrKey n db (chowned db n uid gid mode t) :=
  ((((Only.refl _ n db).put (attrKey (by decide)) _).put (attrKey (by decide)) _).put
    (attrKey (by decide)) _).put (attrKey (by decide)) _

theorem set_xattr_only {key : String} (hkey : IsXattr key) (value : Bytes) (t : DbfsTimeSpec) :
    Only AttrKey n db (set_xattr db n key value t) :=
  ((Only.refl _ n db).put (.inr ⟨key, hkey, rfl⟩) value).put (attrKey (by decide)) _

theorem utimens_only {atime mtime : Option DbfsTimeSpec} {c_time : DbfsTimeSpec} {u : Unit}
    (h : utimens_tx n atime mtime c_time db = .Ok (u, db')) : Only AttrKey n db db' := by
  simp only [utimens_tx, bind_ok, get_bucket_ok] at h
  obtain ⟨_, _, ⟨hn, rfl⟩, _, db₁, hatime, _, db₂, hmtime, hput⟩ := h
  rw [puts_ok hn] at hatime
  subst hatime
  rw [puts_ok (by simpa using hn)] at hmtime
  subst hmtime
  rw [put_ok] at hput
  obtain ⟨_, rfl⟩ := hput
  refine (((Only.refl _ n _).puts fun kv hkv => ?_).puts fun kv hkv => ?_).put
    (attrKey (by decide)) _
  · obtain ⟨t, _, rfl⟩ := List.mem_map.mp hkv
    exact attrKey (f := .atime) (by decide)
  · obtain ⟨t, _, rfl⟩ := List.mem_map.mp hkv
    exact attrKey (f := .mtime) (by decide)

variable [Features]

theorem truncate_only {ctime : DbfsTimeSpec} {f_size : UInt64} {attr a : DbfsAttr}
    (h : truncate_tx n ctime f_size attr db = .Ok (a, db')) : Only FileKey n db db' := by
  simp [truncate_tx] at h
  obtain ⟨_, _, db₁, hblocks, _, ⟨_, rfl⟩, _⟩ := h
  obtain ⟨db₂, _, d, hslices, _, _, rfl, _⟩ := truncate_blocks_ok hblocks
  have hsb : Only FileKey n db (db₂.sb_put .disk_size (be_usize d)) :=
    ⟨hslices.only.has, hslices.only.get⟩
  exact (((hsb.put (fileKey (by decide)) _).put (fileKey (by decide)) _).put
    (fileKey (by decide)) _).put (fileKey (by decide)) _

theorem fallocate_only {r_uid r_gid : UInt32} {offset size : Nat} {mode : UInt32}
    {ctime : DbfsTimeSpec} {u : Unit}
    (h : fallocate_tx r_uid r_gid n offset size mode ctime db = .Ok (u, db')) :
    Only FileKey n db db' := by
  have hsize : ∀ {db₁ : Db} {f_size i_size : Nat}, Only FileKey n db db₁ →
      fallocate_size n f_size i_size mode ctime db₁ = .Ok (u, db') → Only FileKey n db db' := by
    intro db₁ f_size i_size h₁ h
    simp [fallocate_size] at h
    rcases h with ⟨_, _, ⟨_, _, rfl⟩ | ⟨_, rfl⟩⟩ | ⟨_, rfl⟩
    · exact ((h₁.put (fileKey (by decide)) _).put (fileKey (by decide)) _).put
        (fileKey (by decide)) _
    · exact (h₁.put (fileKey (by decide)) _).put (fileKey (by decide)) _
    · exact h₁
  simp [fallocate_tx, charge_ok] at h
  obtain ⟨_, _, _, _, _, _, _, i_size, _, _, _, h⟩ := h
  rcases h with ⟨_, d, _, h⟩ | ⟨_, h⟩
  · have hsb : Only FileKey n db (db.sb_put .disk_size (be_usize (d - (offset + size - i_size)))) :=
      ⟨fun m => Iff.rfl, fun m k _ => rfl⟩
    exact hsize hsb h
  · exact hsize (.refl _ n db) h

end only

section oncalls

variable [Features] {s s' : Sys} {n : UInt64} {t : FileTree} {uid gid : UInt32}

/-- The names stay under a call that changes no key they are made of. -/
theorem namesKept_of_call {K : Bytes → Prop}
    (hK : ∀ k, K k → is_data_key k = false ∧ k ≠ Field.hard_links.key) (h : Readable s.db)
    (c : Call) (hc : c.Sound s.db) (honly : Only K n s.db (c.run uid gid s).2.db)
    (hsize : s.db.IsDir n → ¬ K Field.size.key) : NamesKept s.db (c.run uid gid s).2.db where
  has := honly.has
  kind m := by
    by_cases hm : s.db.Has m
    · exact kind_kept (h m hm).1 (call_kept (links_of_laid fun n hn => (h n hn).1) h.fits c hc.fits
        uid gid hm ((honly.has m).mpr hm))
    · have hm' : ¬ (c.run uid gid s).2.db.Has m := fun e => hm ((honly.has m).mp e)
      rw [Db.kind, Db.kind, Db.u16, Db.u16, Db.get_of_not_has hm, Db.get_of_not_has hm']
  get m k hk := by
    refine honly.get m k ?_
    rintro rfl hKk
    rcases hk with hdata | hlinks | ⟨rfl, hd⟩
    · rw [(hK k hKk).1] at hdata
      cases hdata
    · exact (hK k hKk).2 hlinks
    · exact hsize hd hKk

/-- A call that changes attributes only keeps the tree. -/
theorem ShowsTree.attributes (h : ShowsTree s.db t) (c : Call) (hc : c.Sound s.db)
    (honly : Only AttrKey n s.db (c.run uid gid s).2.db) :
    ShowsTree (c.run uid gid s).2.db t := by
  have hsame := namesKept_of_call (fun _ => AttrKey.other) h.readable c hc honly
    fun _ hk => hk.not_content.1 rfl
  refine h.kept (n := n) hsame (call_readable h.readable c hc uid gid)
    (fun m k hm => honly.get m k fun e => absurd e hm) fun k hk => honly.get n k fun _ hKk => ?_
  rcases hk with rfl | hz
  · exact hKk.not_content.1 rfl
  · exact hKk.not_content.2 hz

/-- A call on the content of a regular file changes the bytes of this file. -/
theorem ShowsTree.content (uid gid : UInt32) (h : ShowsTree s.db t) (c : Call)
    (hc : c.Sound s.db) {l : Bytes} (hl : t.bytes n = some l)
    (honly : Only FileKey n s.db (c.run uid gid s).2.db) {f : Bytes → Bytes}
    (hholds : Holds (c.run uid gid s).2.db n (f l)) :
    ShowsTree (c.run uid gid s).2.db (t.edit n f) := by
  have hregular := (h.file n l hl).1
  have hsame := namesKept_of_call (fun _ => FileKey.other) h.readable c hc honly fun hd _ => by
    cases hregular.symm.trans hd
  refine h.of_same hsame (call_readable h.readable c hc uid gid)
    (fun m k hm => honly.get m k fun e => absurd e hm) fun l' hl' => ?_
  cases hl.symm.trans hl'
  exact hholds

end oncalls

end dbfs2
