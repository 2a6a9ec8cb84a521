-- The tree of names in the database: the directories and entries of the inode
-- buckets as a graph of names, the counts that the code stores beside them, and
-- what each naming call does to the graph.
import Dbfs2.NameGraph
import Dbfs2.InodeSpec
import Dbfs2.FsType

namespace dbfs2

open common inode

/-! ## Directories, entries and counts -/

namespace Db

def kind (db : Db) (n : UInt64) : Option DbfsFileType :=
  (db.u16 n .mode).bind DbfsFileType.from

def IsDir (db : Db) (n : UInt64) : Prop := db.kind n = some .Directory

instance (db : Db) (n : UInt64) : Decidable (db.IsDir n) := inferInstanceAs (Decidable (_ = _))

/-- The number of `data:` entries of an inode bucket. -/
def data_count (db : Db) (n : UInt64) : Nat := Store.count db.inodes (fun k _ => is_data_key k) n

/-- A binding is an entry that refers to `i`. -/
def refers (i : UInt64) (k v : Bytes) : Bool := is_data_key k && parse_ino v == some i

/-- The number of entries that refer to `i`, over the buckets of a class. -/
def ref_count (db : Db) (c : Bucket → Bool) (i : UInt64) : Nat :=
  Store.total db.inodes c (refers i)

end Db

/-- The bucket of a directory. -/
def is_dir_bucket (b : Bucket) : Bool :=
  ((b.find? Field.mode.key).bind u16).bind DbfsFileType.from == some .Directory

/-- The names of the buckets of a class are consistent: the stored sizes of the directories
and link counts of the other inodes are exact, and every entry refers to an inode. -/
structure Consistent (c : Bucket → Bool) (db : Db) : Prop where
  size (n : UInt64) : db.IsDir n → db.usize n .size = some (db.data_count n)
  entry (n : UInt64) (b : Bucket) (k v : Bytes) : db.inodes.find? n = some b → c b = true →
    b.find? k = some v → is_data_key k = true → ∃ i, parse_ino v = some i ∧ db.Has i
  links (i : UInt64) : db.Has i → ¬ db.IsDir i →
    ∃ h : UInt32, db.u32 i .hard_links = some h ∧ h.toNat = db.ref_count c i

/-! ## The graph of names -/

def dot : Bytes := generate_data_key "."

def dotdot : Bytes := generate_data_key ".."

theorem dot_ne_dotdot : dot ≠ dotdot := by
  simp [dot, dotdot]

abbrev Proper (k : Bytes) : Prop := NameGraph.Proper dot dotdot k

/-- A name other than the dots has a key other than theirs. -/
theorem proper_name {name : String} (h1 : name ≠ ".") (h2 : name ≠ "..") :
    Proper (generate_data_key name) := by
  constructor
  · simpa [dot] using h1
  · simpa [dotdot] using h2

/-- The entries of the directories as a graph. -/
def Db.graph (db : Db) : NameGraph UInt64 Bytes where
  node := {n | db.Has n}
  dir := {n | db.IsDir n}
  edge n k := if db.IsDir n ∧ is_data_key k = true then db.ref n k else none

theorem Db.graph_edge {db : Db} {n : UInt64} {k : Bytes} (hn : db.IsDir n)
    (hk : is_data_key k = true) : db.graph.edge n k = db.ref n k := if_pos ⟨hn, hk⟩

theorem Db.graph_edge_some {db : Db} {n i : UInt64} {k : Bytes} (h : db.graph.edge n k = some i) :
    db.IsDir n ∧ is_data_key k = true ∧ db.ref n k = some i := by
  simp only [graph] at h
  split_ifs at h with hc
  exact ⟨hc.1, hc.2, h⟩

theorem graph_entry {db : Db} {n i : UInt64} {name : String} (hn : db.IsDir n)
    (he : db.entry n name = some i) : db.graph.edge n (generate_data_key name) = some i := by
  rw [Db.graph_edge hn (by simp)]
  exact he

theorem Db.has_of_isDir {db : Db} {n : UInt64} (h : db.IsDir n) : db.Has n := by
  obtain ⟨m, hm, _⟩ := Option.bind_eq_some_iff.mp h
  exact has_of_u16 hm

/-- Every entry of a directory is a number. -/
def Db.Decoded (db : Db) : Prop := ∀ n k v, db.IsDir n → db.get n k = some v →
  is_data_key k = true → ∃ i, parse_ino v = some i

/-- What holds in every state: the graph is well formed, every entry of a directory is a
number, and the stored counts are those of the graph. -/
structure Names (db : Db) : Prop where
  wf : NameGraph.WellFormed dot dotdot 1 db.graph
  decodes : db.Decoded
  size (n : UInt64) : db.IsDir n → db.usize n .size = some (db.graph.size n)
  links (i : UInt64) : db.Has i → ¬ db.IsDir i →
    ∃ h : UInt32, db.u32 i .hard_links = some h ∧ h.toNat = db.graph.refs i

/-- Only directories hold entries, and only they have the bit of a directory. -/
structure Bare (db : Db) : Prop where
  entries (n : UInt64) (k : Bytes) : ¬ db.IsDir n → is_data_key k = true → db.get n k = none
  bit (n : UInt64) (m : DbfsPermission) : ¬ db.IsDir n → db.u16 n .mode = some m →
    m.contains DbfsPermission.S_IFDIR = false

theorem isDir_iff_bucket {db : Db} {n : UInt64} {b : Bucket} (hb : db.inodes.find? n = some b) :
    is_dir_bucket b = true ↔ db.IsDir n := by
  unfold is_dir_bucket Db.IsDir Db.kind Db.u16 Db.get Store.get
  simp [hb]

/-- The number of entries in a directory is its size in the graph. -/
theorem Names.data_count {db : Db} (h : Names db) {n : UInt64} (hn : db.IsDir n) :
    db.data_count n = db.graph.size n := by
  have hset : {k | ∃ v, Store.get db.inodes n k = some v ∧ is_data_key k = true} =
      db.graph.keys n := by
    ext k
    simp only [Set.mem_ofPred_eq, NameGraph.keys]
    constructor
    · rintro ⟨v, hv, hk⟩
      obtain ⟨i, hi⟩ := h.decodes n k v hn hv hk
      rw [Db.graph_edge hn hk, Db.ref, show db.get n k = some v from hv, Option.bind_some, hi]
      simp
    · intro hne
      obtain ⟨i, hi⟩ := Option.ne_none_iff_exists'.mp hne
      obtain ⟨_, hk, hr⟩ := Db.graph_edge_some hi
      obtain ⟨v, hv, _⟩ := Option.bind_eq_some_iff.mp hr
      exact ⟨v, hv, hk⟩
  rw [Db.data_count, Store.count_eq_ncard, hset, NameGraph.size]

/-- The entries that refer to an inode are its references in the graph, when the buckets
counted hold entries in directories only. -/
theorem ref_count_eq {db : Db} {c : Bucket → Bool} (i : UInt64)
    (hc : ∀ n b k v, db.inodes.find? n = some b → b.find? k = some v → is_data_key k = true →
      (c b = true ↔ db.IsDir n)) : db.ref_count c i = db.graph.refs i := by
  rw [Db.ref_count, Store.total_eq_ncard, NameGraph.refs]
  congr 1
  ext ⟨n, k⟩
  simp only [Set.mem_ofPred_eq, NameGraph.links, Db.refers, Bool.and_eq_true, beq_iff_eq]
  constructor
  · rintro ⟨b, v, hb, hcb, hv, hk, hi⟩
    have hn := (hc n b k v hb hv hk).mp hcb
    have hget : db.get n k = some v := Store.get_eq_some.mpr ⟨b, hb, hv⟩
    rw [Db.graph_edge hn hk, Db.ref, hget]
    exact hi
  · intro he
    obtain ⟨hn, hk, hr⟩ := Db.graph_edge_some he
    obtain ⟨v, hv, hi⟩ := Option.bind_eq_some_iff.mp hr
    obtain ⟨b, hb, hbv⟩ := Store.get_eq_some.mp hv
    exact ⟨b, v, hb, (hc n b k v hb hbv hk).mpr hn, hbv, hk, hi⟩

theorem Names.self_entry {db : Db} (h : Names db) {n : UInt64} (hn : db.IsDir n) :
    db.entry n "." = some n :=
  (Db.graph_edge_some (h.wf.self hn)).2.2

theorem Names.entry {db : Db} (h : Names db) {n : UInt64} {k v : Bytes} (hn : db.IsDir n)
    (hv : db.get n k = some v) (hk : is_data_key k = true) :
    ∃ i, parse_ino v = some i ∧ db.Has i := by
  obtain ⟨i, hi⟩ := h.decodes n k v hn hv hk
  refine ⟨i, hi, h.wf.target (n := n) (k := k) ?_⟩
  rw [Db.graph_edge hn hk, Db.ref, hv]
  exact hi

/-- The names of the directories are consistent in every such state. -/
theorem Names.consistent_dirs {db : Db} (h : Names db) : Consistent is_dir_bucket db where
  size n hn := by rw [h.size n hn, h.data_count hn]
  entry n b k v hb hc hv hk :=
    h.entry ((isDir_iff_bucket hb).mp hc) (Store.get_eq_some.mpr ⟨b, hb, hv⟩) hk
  links i hi hd := by
    rw [ref_count_eq i fun n b k v hb _ _ => isDir_iff_bucket hb]
    exact h.links i hi hd

/-- The names of all buckets are consistent when only directories hold entries. -/
theorem Names.consistent {db : Db} (h : Names db) (hbare : Bare db) :
    Consistent (fun _ => true) db := by
  have hdir : ∀ n b k v, db.inodes.find? n = some b → b.find? k = some v →
      is_data_key k = true → db.IsDir n := by
    intro n b k v hb hv hk
    by_contra hn
    have := hbare.entries n k hn hk
    rw [show db.get n k = some v from Store.get_eq_some.mpr ⟨b, hb, hv⟩] at this
    cases this
  exact
    { size := fun n hn => by rw [h.size n hn, h.data_count hn]
      entry := fun n b k v hb _ hv hk =>
        h.entry (hdir n b k v hb hv hk) (Store.get_eq_some.mpr ⟨b, hb, hv⟩) hk
      links := fun i hi hd => by
        rw [ref_count_eq i fun n b k v hb hv hk => by simp [hdir n b k v hb hv hk]]
        exact h.links i hi hd }

/-! ## What a call does to the graph -/

theorem graph_ext {db : Db} {g : NameGraph UInt64 Bytes} (hnode : ∀ n, db.Has n ↔ n ∈ g.node)
    (hdir : ∀ n, db.IsDir n ↔ n ∈ g.dir)
    (hedge : ∀ n k, db.IsDir n → is_data_key k = true → db.ref n k = g.edge n k)
    (hrest : ∀ n k i, g.edge n k = some i → db.IsDir n ∧ is_data_key k = true) : db.graph = g := by
  ext n k
  · exact hnode n
  · exact hdir n
  · simp only [Db.graph]
    split_ifs with hc
    · rw [hedge n k hc.1 hc.2]
    · rcases he : g.edge n k with _ | i
      · simp
      · exact absurd (hrest n k i he) hc

theorem ref_ino_bytes {db : Db} {n i : UInt64} {k : Bytes} (h : db.get n k = some (ino_bytes i)) :
    db.ref n k = some i := by
  rw [Db.ref, h]
  exact parse_ino_bytes i

/-- The mode decides what is a directory. -/
theorem isDir_congr {db db' : Db} {n : UInt64} (h : db'.u16 n .mode = db.u16 n .mode) :
    db'.IsDir n ↔ db.IsDir n := by
  unfold Db.IsDir Db.kind
  rw [h]

theorem graph_free {db : Db} {n : UInt64} {k : Bytes} (hfree : db.get n k = none) :
    db.graph.edge n k = none := by
  rcases he : db.graph.edge n k with _ | i
  · rfl
  · have := (Db.graph_edge_some he).2.2
    rw [Db.ref, hfree] at this
    cases this

/-- An entry of a directory written or taken away. -/
structure Edit where
  dir : UInt64
  key : Bytes
  target : Option UInt64

/-- What stands under a key after some edits, the last one first. -/
def edited (db : Db) : List Edit → UInt64 → Bytes → Option Bytes
  | [], n, k => db.get n k
  | e :: es, n, k => if n = e.dir ∧ k = e.key then e.target.map ino_bytes else edited db es n k

/-- The graph after the same edits. -/
def Edit.graph (g : NameGraph UInt64 Bytes) : List Edit → NameGraph UInt64 Bytes
  | [] => g
  | e :: es => (Edit.graph g es).set e.dir e.key e.target

/-- One database is another with some entries of its directories edited. -/
structure Edits (db db' : Db) (es : List Edit) : Prop where
  kind (n : UInt64) : db'.IsDir n ↔ db.IsDir n
  place : ∀ e ∈ es, db.IsDir e.dir ∧ is_data_key e.key = true
  get (n : UInt64) (k : Bytes) : db.IsDir n → is_data_key k = true →
    db'.get n k = edited db es n k

theorem edited_ref (db : Db) (es : List Edit) {n : UInt64} {k : Bytes} (hn : db.IsDir n)
    (hk : is_data_key k = true) :
    (edited db es n k).bind parse_ino = (Edit.graph db.graph es).edge n k := by
  induction es with
  | nil => exact (Db.graph_edge hn hk).symm
  | cons e es ih =>
    simp only [edited, Edit.graph, NameGraph.edge_set]
    split_ifs
    · rcases e.target with _ | i
      · rfl
      · exact parse_ino_bytes i
    · exact ih

theorem Edit.graph_dir (db : Db) (es : List Edit) :
    (Edit.graph db.graph es).dir = db.graph.dir := by
  induction es with
  | nil => rfl
  | cons e es ih => exact ih

theorem Edits.graph {db db' : Db} {es : List Edit} (h : Edits db db' es) :
    db'.graph = { Edit.graph db.graph es with node := {n | db'.Has n} } := by
  refine graph_ext (fun n => Iff.rfl) (fun n => ?_) (fun n k hn hk => ?_) (fun n k i he => ?_)
  · change _ ↔ n ∈ (Edit.graph db.graph es).dir
    rw [Edit.graph_dir]
    exact h.kind n
  · rw [Db.ref, h.get n k ((h.kind n).mp hn) hk]
    exact edited_ref db es ((h.kind n).mp hn) hk
  · change (Edit.graph db.graph es).edge n k = some i at he
    rw [h.kind n]
    have hplace := h.place
    clear h
    induction es with
    | nil => exact ⟨(Db.graph_edge_some he).1, (Db.graph_edge_some he).2.1⟩
    | cons e es ih =>
      simp only [Edit.graph, NameGraph.edge_set] at he
      split_ifs at he with hc
      · rw [hc.1, hc.2]
        exact hplace e List.mem_cons_self
      · exact ih he fun x hx => hplace x (List.mem_cons_of_mem _ hx)

/-- Edits write numbers. -/
theorem Edits.decodes {db db' : Db} {es : List Edit} (he : Edits db db' es) (h : db.Decoded) :
    db'.Decoded := by
  intro n k v hn hv hk
  have hn' := (he.kind n).mp hn
  rw [he.get n k hn' hk] at hv
  clear he
  induction es with
  | nil => exact h n k v hn' hv hk
  | cons e es ih =>
    simp only [edited] at hv
    split_ifs at hv
    · obtain ⟨i, _, rfl⟩ := Option.map_eq_some_iff.mp hv
      exact ⟨i, parse_ino_bytes i⟩
    · exact ih hv

section steps

variable {db db' : Db} {uid gid : UInt32} {name : String} {t : DbfsTimeSpec} {u : Unit}

theorem link_edits {ino new_ino : UInt64} (htx : link_tx ino new_ino name t db = .Ok (u, db'))
    (hdir : db.IsDir new_ino) :
    Edits db db' [⟨new_ino, generate_data_key name, some ino⟩] := by
  obtain ⟨size, links, _, _, _, _, _, hdb⟩ := link_tx_spec htx
  refine ⟨fun n => isDir_congr (by simp [hdb]), by simp [hdir], fun n k _ hk => ?_⟩
  have hf : ∀ f : Field, k ≠ f.key := fun f => ne_of_is_data_key hk (by simp)
  simp [hdb, edited, hf, Db.has_of_isDir hdir]

theorem link_names {ino new_ino : UInt64} (h : Names db)
    (htx : link_tx ino new_ino name t db = .Ok (u, db')) (hdir : db.IsDir new_ino)
    (hino : ¬ db.IsDir ino) (h1 : name ≠ ".") (h2 : name ≠ "..")
    (hfree : db.get new_ino (generate_data_key name) = none) :
    Names db' ∧ (Bare db → Bare db') := by
  obtain ⟨size, links, hhas, hsize, hlt, hlinks, hlt', hdb⟩ := link_tx_spec htx
  have hnew := Db.has_of_isDir hdir
  have hHas : ∀ n, db'.Has n ↔ db.Has n := fun n => by simp [hdb]
  have hes := link_edits htx hdir
  have hedge := graph_free hfree
  refine ⟨⟨?_, hes.decodes h.decodes, fun n hn => ?_, fun i hi hd => ?_⟩,
    fun hbare => ⟨fun n k hn hk => ?_, fun n m hn hm => ?_⟩⟩
  · rw [hes.graph]
    exact h.wf.bind hdir (proper_name h1 h2) (fun n hn => (hHas n).mpr hn) ((hHas ino).mpr hhas)
      hino hedge
  · have hn' := (hes.kind n).mp hn
    rw [hes.graph]
    change db'.usize n .size =
      some ((db.graph.set new_ino (generate_data_key name) (some ino)).size n)
    rw [NameGraph.size_bind h.wf.finite hedge]
    have hold := h.size n hn'
    split_ifs with hnn
    · subst hnn
      rw [hsize] at hold
      cases hold
      simp [hdb, hnew, usize_be hlt]
    · simpa [hdb, hnn] using hold
  · have hd' : ¬ db.IsDir i := fun e => hd ((hes.kind i).mpr e)
    obtain ⟨l, hl, hcnt⟩ := h.links i ((hHas i).mp hi) hd'
    rw [hes.graph]
    change ∃ x : UInt32, _ ∧ x.toNat =
      (db.graph.set new_ino (generate_data_key name) (some ino)).refs i
    rw [NameGraph.refs_bind h.wf.finite hedge]
    split_ifs with hii
    · subst hii
      rw [hlinks] at hl
      cases hl
      refine ⟨links + 1, by simp [hdb, hhas], ?_⟩
      rw [UInt32.toNat_add, UInt32.toNat_one]
      omega
    · exact ⟨l, by simp [hdb, hl, hii], hcnt⟩
  · have hn' : ¬ db.IsDir n := fun e => hn ((hes.kind n).mpr e)
    have hne : n ≠ new_ino := fun e => hn' (e ▸ hdir)
    have hf : ∀ f : Field, k ≠ f.key := fun f => ne_of_is_data_key hk (by simp)
    simpa [hdb, hf, hne] using hbare.entries n k hn' hk
  · exact hbare.bit n m (fun e => hn ((hes.kind n).mpr e)) (by simpa [hdb] using hm)

/-- Both ends of an unlink leave the directories and their entries the same. -/
theorem unlink_reads {dir i : UInt64}
    (htx : unlink_tx uid gid dir name none t db = .Ok (u, db')) (hi : db.entry dir name = some i)
    (hnd : ¬ db.IsDir i) : (∀ n, db'.IsDir n ↔ db.IsDir n) ∧ ∀ n k, n ≠ i →
      is_data_key k = true → db'.get n k = edited db [⟨dir, generate_data_key name, none⟩] n k := by
  obtain ⟨_, i', size, links, hi', _, _, _, _, hend⟩ := unlink_tx_spec htx
  cases hi.symm.trans hi'
  refine ⟨fun n => ?_, fun n k hn hk => ?_⟩
  · rcases hend with ⟨_, hdb⟩ | ⟨_, _, hdb⟩
    · by_cases hni : n = i
      · subst hni
        refine ⟨fun e => absurd (Db.has_of_isDir e) (by simp [hdb]), fun e => absurd e hnd⟩
      · exact isDir_congr (by simp [hdb, hni])
    · exact isDir_congr (by simp [hdb])
  · have hf : ∀ f : Field, k ≠ f.key := fun f => ne_of_is_data_key hk (by simp)
    rcases hend with ⟨_, hdb⟩ | ⟨_, _, hdb⟩ <;> simp [hdb, edited, hf, hn]

theorem unlink_edits {dir : UInt64} (htx : unlink_tx uid gid dir name none t db = .Ok (u, db'))
    (hdir : db.IsDir dir) (htarget : ∀ i, db.entry dir name = some i → ¬ db.IsDir i) :
    Edits db db' [⟨dir, generate_data_key name, none⟩] := by
  obtain ⟨_, i, _, _, hi, _⟩ := unlink_tx_spec htx
  obtain ⟨hkind, hget⟩ := unlink_reads htx hi (htarget i hi)
  exact ⟨hkind, by simp [hdir], fun n k hn hk => hget n k (fun e => htarget i hi (e ▸ hn)) hk⟩

/-- What an unlink leaves: the entry is gone, and the target has one link less or is gone. -/
theorem unlink_names {dir : UInt64} (h : Names db)
    (htx : unlink_tx uid gid dir name none t db = .Ok (u, db')) (hdir : db.IsDir dir)
    (htarget : ∀ i, db.entry dir name = some i → ¬ db.IsDir i) (h1 : name ≠ ".")
    (h2 : name ≠ "..") : Names db' ∧ (Bare db → Bare db') := by
  obtain ⟨_, i, size, links, hi, _, hsize, hpos, hlinks, hend⟩ := unlink_tx_spec htx
  have hnd := htarget i hi
  have hne : dir ≠ i := fun e => hnd (e ▸ hdir)
  have hhas := Db.has_of_isDir hdir
  have hhi := Db.has_of_u32 hlinks
  have hedge := graph_entry hdir hi
  have hlt : size - 1 < 2 ^ 64 := by
    have := Db.lt_of_usize hsize
    omega
  obtain ⟨hkind, hget⟩ := unlink_reads htx hi hnd
  have hes := unlink_edits htx hdir htarget
  have hother : ∀ n, n ≠ i → (db'.Has n ↔ db.Has n) := by
    intro n hn
    rcases hend with ⟨_, hdb⟩ | ⟨_, _, hdb⟩ <;> simp [hdb, hn]
  obtain ⟨l, hl, hcnt⟩ := h.links i hhi hnd
  rw [hlinks] at hl
  cases hl
  refine ⟨⟨?_, hes.decodes h.decodes, fun n hn => ?_, fun j hj hd => ?_⟩,
    fun hbare => ⟨fun n k hn hk => ?_, fun n m hn hm => ?_⟩⟩
  · rw [hes.graph]
    refine h.wf.unbind (proper_name h1 h2) hedge hnd (fun a ha hai => (hother a hai).mpr ha) ?_
    rcases hend with ⟨hone, _⟩ | ⟨_, _, hdb⟩
    · right
      rw [← hcnt, hone]
      rfl
    · left
      change db'.Has i
      simpa [hdb] using hhi
  · have hn' := (hkind n).mp hn
    have hni : n ≠ i := fun e => hnd (e ▸ hn')
    have hcount := NameGraph.size_unbind h.wf.finite hedge n
    have hold := h.size n hn'
    have hnew : db'.usize n .size = if n = dir then some (size - 1) else db.usize n .size := by
      rcases hend with ⟨_, hdb⟩ | ⟨_, _, hdb⟩ <;> simp [hdb, hni, hhas, usize_be hlt]
    rw [hes.graph, hnew]
    change _ = some ((db.graph.set dir (generate_data_key name) none).size n)
    split_ifs at hcount ⊢ with hnn
    · subst hnn
      rw [hsize] at hold
      cases hold
      rw [← hcount]
      rfl
    · rw [hold, ← hcount]
      rfl
  · have hd' : ¬ db.IsDir j := fun e => hd ((hkind j).mpr e)
    have hcount := NameGraph.refs_unbind h.wf.finite hedge j
    rw [hes.graph]
    change ∃ x : UInt32, _ ∧ x.toNat = (db.graph.set dir (generate_data_key name) none).refs j
    by_cases hji : j = i
    · subst hji
      rcases hend with ⟨_, hdb⟩ | ⟨hone, hle, hdb⟩
      · exact absurd hj (by simp [hdb])
      · refine ⟨links - 1, by simp [hdb, hhi], ?_⟩
        have hsub : (links - 1).toNat = links.toNat - 1 := by
          rw [UInt32.toNat_sub_of_le _ _ hle, UInt32.toNat_one]
        simp only [if_true] at hcount
        omega
    · obtain ⟨l, hl, hcntj⟩ := h.links j ((hother j hji).mp hj) hd'
      refine ⟨l, ?_, ?_⟩
      · rcases hend with ⟨_, hdb⟩ | ⟨_, _, hdb⟩ <;> simp [hdb, hji, hl]
      · simp only [hji, if_false] at hcount
        omega
  · have hn' : ¬ db.IsDir n := fun e => hn ((hkind n).mpr e)
    by_cases hni : n = i
    · subst hni
      have hf : ∀ f : Field, k ≠ f.key := fun f => ne_of_is_data_key hk (by simp)
      have hb := hbare.entries n k hn' hk
      rcases hend with ⟨_, hdb⟩ | ⟨_, _, hdb⟩
      · simp [hdb]
      · simp [hdb, hf, hne.symm, hb]
    · have hnd' : n ≠ dir := fun e => hn' (e ▸ hdir)
      rw [hget n k hni hk]
      simpa [edited, hnd'] using hbare.entries n k hn' hk
  · refine hbare.bit n m (fun e => hn ((hkind n).mpr e)) ?_
    rcases hend with ⟨_, hdb⟩ | ⟨_, _, hdb⟩
    · have hni : n ≠ i := fun e => absurd (Db.has_of_u16 hm) (by simp [hdb, e])
      simpa [hdb, hni] using hm
    · simpa [hdb] using hm

/-- One database is another without inode `i` and an entry for it. -/
structure Dropped (db db' : Db) (dir : UInt64) (name : String) (i : UInt64) : Prop where
  has (n : UInt64) : db'.Has n ↔ n ≠ i ∧ db.Has n
  mode (n : UInt64) : n ≠ i → db'.u16 n .mode = db.u16 n .mode
  get (n : UInt64) (k : Bytes) : n ≠ i → is_data_key k = true →
    db'.get n k = edited db [⟨dir, generate_data_key name, none⟩] n k

/-- And the directory has counted the entry off. -/
structure Removed (db db' : Db) (dir : UInt64) (name : String) (i : UInt64) (size : Nat) : Prop
    extends Dropped db db' dir name i where
  links (n : UInt64) : n ≠ i → db'.u32 n .hard_links = db.u32 n .hard_links
  size (n : UInt64) : n ≠ i →
    db'.usize n .size = if n = dir then some (size - 1) else db.usize n .size

section removed

variable {dir i : UInt64} {size : Nat}

theorem Dropped.isDir (h : Dropped db db' dir name i) (n : UInt64) :
    db'.IsDir n ↔ db.IsDir n ∧ n ≠ i := by
  by_cases hni : n = i
  · subst hni
    exact ⟨fun e => absurd rfl ((h.has n).mp (Db.has_of_isDir e)).1, fun e => absurd rfl e.2⟩
  · rw [isDir_congr (h.mode n hni)]
    exact ⟨fun e => ⟨e, hni⟩, fun e => e.1⟩

theorem Dropped.graph (h : Dropped db db' dir name i) :
    db'.graph = NameGraph.removeDir db.graph dir (generate_data_key name) i := by
  refine graph_ext (fun n => ?_) h.isDir (fun n k hn hk => ?_) (fun n k j he => ?_)
  · rw [h.has n]
    exact And.comm
  · obtain ⟨hn', hni⟩ := (h.isDir n).mp hn
    change db'.ref n k = if n = i then none else _
    rw [if_neg hni, Db.ref, h.get n k hni hk]
    exact edited_ref db _ hn' hk
  · change (if n = i then none else (db.graph.set dir (generate_data_key name) none).edge n k) =
      some j at he
    split_ifs at he with hni
    rw [NameGraph.edge_set] at he
    split_ifs at he
    obtain ⟨hn', hk', _⟩ := Db.graph_edge_some he
    exact ⟨(h.isDir n).mpr ⟨hn', hni⟩, hk'⟩

theorem Dropped.decodes (h : Dropped db db' dir name i) (hdec : db.Decoded) :
    db'.Decoded := by
  intro n k v hn hv hk
  obtain ⟨hn', hni⟩ := (h.isDir n).mp hn
  rw [h.get n k hni hk] at hv
  simp only [edited] at hv
  split_ifs at hv
  · cases hv
  · exact hdec n k v hn' hv hk

theorem rmdir_removed (htx : rmdir_tx uid gid dir name t db = .Ok (u, db'))
    (hi : db.entry dir name = some i) (hsize : db.usize dir .size = some size) :
    Removed db db' dir name i size := by
  obtain ⟨_, i', size', _, hi', _, _, _, hsize', _, hdb⟩ := rmdir_tx_spec htx
  cases hi.symm.trans hi'
  cases hsize.symm.trans hsize'
  have hlt : size - 1 < 2 ^ 64 := by
    have := Db.lt_of_usize hsize
    omega
  refine ⟨⟨fun n => ?_, fun n hn => ?_, fun n k hn hk => ?_⟩, fun n hn => ?_, fun n hn => ?_⟩
  · simp [hdb]
  · simp [hdb, hn]
  · have hf : ∀ f : Field, k ≠ f.key := fun f => ne_of_is_data_key hk (by simp)
    simp [hdb, edited, hf, hn]
  · simp [hdb, hn]
  · simp [hdb, hn, Db.has_of_usize hsize, usize_be hlt]

end removed

theorem rmdir_names {dir : UInt64} (h : Names db)
    (htx : rmdir_tx uid gid dir name t db = .Ok (u, db')) (hdir : db.IsDir dir)
    (htarget : ∀ i, db.entry dir name = some i → db.IsDir i) (h1 : name ≠ ".")
    (h2 : name ≠ "..") : Names db' ∧ (Bare db → Bare db') := by
  obtain ⟨_, i, size, i_size, hi, _, hisize, hle, hsize, hpos, _⟩ := rmdir_tx_spec htx
  have hrem := rmdir_removed htx hi hsize
  have hd := htarget i hi
  have hk := proper_name h1 h2
  have hedge := graph_entry hdir hi
  have htwo : db.graph.size i ≤ 2 := by
    have := h.size i hd
    rw [hisize] at this
    cases this
    exact hle
  refine ⟨⟨?_, hrem.decodes h.decodes, fun n hn => ?_, fun j hj hd' => ?_⟩,
    fun hbare => ⟨fun n k hn hk => ?_, fun n m hn hm => ?_⟩⟩
  · rw [hrem.graph]
    exact h.wf.removeDir dot_ne_dotdot hk hedge hd htwo
  · obtain ⟨hn', hni⟩ := (hrem.isDir n).mp hn
    have hcount := NameGraph.size_unbind h.wf.finite hedge n
    have hold := h.size n hn'
    rw [hrem.graph, NameGraph.size_removeDir _ _ hni, hrem.size n hni]
    split_ifs at hcount ⊢ with hnn
    · subst hnn
      rw [hsize] at hold
      cases hold
      rw [← hcount]
      rfl
    · rw [hold, ← hcount]
      rfl
  · obtain ⟨hji, hj'⟩ := (hrem.has j).mp hj
    have hjd : ¬ db.IsDir j := fun e => hd' ((hrem.isDir j).mpr ⟨e, hji⟩)
    obtain ⟨l, hl, hcnt⟩ := h.links j hj' hjd
    refine ⟨l, (hrem.links j hji).trans hl, ?_⟩
    rw [hrem.graph, h.wf.refs_removeDir dot_ne_dotdot hk hedge hd htwo hjd]
    exact hcnt
  · by_cases hni : n = i
    · exact Db.get_of_not_has (fun e => ((hrem.has n).mp e).1 hni) k
    · have hn' : ¬ db.IsDir n := fun e => hn ((hrem.isDir n).mpr ⟨e, hni⟩)
      have hnd' : n ≠ dir := fun e => hn' (e ▸ hdir)
      rw [hrem.get n k hni hk]
      simpa [edited, hnd'] using hbare.entries n k hn' hk
  · obtain ⟨hni, _⟩ := (hrem.has n).mp (Db.has_of_u16 hm)
    exact hbare.bit n m (fun e => hn ((hrem.isDir n).mpr ⟨e, hni⟩))
      ((hrem.mode n hni).symm.trans hm)

theorem contains_of_dir {p : DbfsPermission} (h : DbfsFileType.from p = some .Directory) :
    p.contains DbfsPermission.S_IFDIR = true := by
  unfold DbfsFileType.from at h
  split_ifs at h <;> first | assumption | cases h

theorem contains_of_isDir {n : UInt64} {perm : DbfsPermission} (hperm : db.u16 n .mode = some perm)
    (hd : db.IsDir n) : perm.contains DbfsPermission.S_IFDIR = true := by
  rw [Db.IsDir, Db.kind, hperm] at hd
  exact contains_of_dir hd

section rename

variable {old_dir new_dir : UInt64} {old_name new_name : String} {old : RenameOld}

/-- An exchange gives four entries of the directories other targets. -/
theorem rename_exchanged_get {j : UInt64} {perm : DbfsPermission} (hod : db.Has old_dir)
    (hnd : db.Has new_dir) (hi : db.u16 old.number .mode = some old.perm)
    (hj : db.u16 j .mode = some perm) {n : UInt64} {k : Bytes} (hn : db.IsDir n)
    (hk : is_data_key k = true) :
    (rename_exchanged db old_dir old_name new_dir new_name old j perm t).get n k =
      edited db [⟨j, dotdot, some old_dir⟩, ⟨old.number, dot, some new_dir⟩,
        ⟨old_dir, generate_data_key old_name, some j⟩,
        ⟨new_dir, generate_data_key new_name, some old.number⟩] n k := by
  have hf : ∀ f : Field, k ≠ f.key := fun f => ne_of_is_data_key hk (by simp)
  have hdd : (perm.contains .S_IFDIR = true ∧ n = j ∧ k = generate_data_key "..") ↔
      (n = j ∧ k = dotdot) :=
    ⟨And.right, fun e => ⟨contains_of_isDir hj (e.1 ▸ hn), e⟩⟩
  have hdot : (old.perm.contains .S_IFDIR = true ∧ n = old.number ∧ k = generate_data_key ".") ↔
      (n = old.number ∧ k = dot) :=
    ⟨And.right, fun e => ⟨contains_of_isDir hi (e.1 ▸ hn), e⟩⟩
  simp only [rename_exchanged, Db.get_put_if, Db.get_put, Db.has_put_if, Db.has_put, hf,
    Db.has_of_u16 hi, Db.has_of_u16 hj, hod, hnd, and_true, and_false, if_false, edited,
    Option.map_some, hdd, hdot]

/-- One database is another with an entry moved, bucket by bucket. What is moved gets a parent
entry along if it has the bit of a directory. -/
structure Moved (db db' : Db) (old_dir : UInt64) (old_name : String) (new_dir : UInt64)
    (new_name : String) (old : RenameOld) (old_size new_size : Nat) : Prop where
  has (n : UInt64) : db'.Has n ↔ db.Has n
  mode (n : UInt64) : db'.u16 n .mode = db.u16 n .mode
  links (n : UInt64) : db'.u32 n .hard_links = db.u32 n .hard_links
  size (n : UInt64) : db'.usize n .size = if n = new_dir then
      some (if old_dir = new_dir then new_size else new_size + 1)
    else if n = old_dir then some (old_size - 1) else db.usize n .size
  get (n : UInt64) (k : Bytes) : is_data_key k = true → db'.get n k =
    if old.perm.contains DbfsPermission.S_IFDIR = true ∧ n = old.number ∧ k = dotdot then
      some (ino_bytes new_dir)
    else edited db [⟨new_dir, generate_data_key new_name, some old.number⟩,
      ⟨old_dir, generate_data_key old_name, none⟩] n k

theorem rename_moved_moved {old_size new_size : Nat} (hod : db.Has old_dir) (hnd : db.Has new_dir)
    (hlt : old_size - 1 < 2 ^ 64)
    (hlt' : (if old_dir = new_dir then new_size else new_size + 1) < 2 ^ 64)
    (hhas : db.Has old.number) : Moved db (rename_moved db old_dir old_name new_dir new_name old
      old_size new_size t) old_dir old_name new_dir new_name old old_size new_size where
  has n := by simp [rename_moved]
  mode n := by simp [rename_moved]
  links n := by simp [rename_moved]
  size n := by simp [rename_moved, hod, hnd, usize_be hlt, usize_be hlt']
  get n k hk := by
    have hf : ∀ f : Field, k ≠ f.key := fun f => ne_of_is_data_key hk (by simp)
    simp only [rename_moved, Db.get_put_if, Db.get_put, Db.get_delete, hf, Db.has_put,
      Db.has_delete, hnd, hhas, and_true, false_and, and_false, if_false, edited, dotdot,
      Option.map_some, Option.map_none]
    congr

section moved

variable {old_size new_size : Nat}
  (hm : Moved db db' old_dir old_name new_dir new_name old old_size new_size)
  (hod : db.IsDir old_dir) (hnd : db.IsDir new_dir)

include hm

theorem Moved.isDir (n : UInt64) : db'.IsDir n ↔ db.IsDir n := isDir_congr (hm.mode n)

include hod hnd

theorem Moved.edits_dir (hperm : db.u16 old.number .mode = some old.perm)
    (hd : db.IsDir old.number) : Edits db db' [⟨old.number, dotdot, some new_dir⟩,
      ⟨new_dir, generate_data_key new_name, some old.number⟩,
      ⟨old_dir, generate_data_key old_name, none⟩] where
  kind := hm.isDir
  place := by simp [hd, hnd, hod, dotdot]
  get n k _ hk := by
    rw [hm.get n k hk]
    simp only [contains_of_isDir hperm hd, true_and]
    rfl

theorem Moved.edits_leaf (hd : ¬ db.IsDir old.number) : Edits db db'
    [⟨new_dir, generate_data_key new_name, some old.number⟩,
      ⟨old_dir, generate_data_key old_name, none⟩] where
  kind := hm.isDir
  place := by simp [hnd, hod]
  get n k hn hk := by
    have hni : n ≠ old.number := fun e => hd (e ▸ hn)
    rw [hm.get n k hk, if_neg (fun e => hni e.2.1)]

end moved

/-- A move onto a free name keeps the tree of names. -/
theorem Moved.names {old_size new_size : Nat} (h : Names db)
    (hm : Moved db db' old_dir old_name new_dir new_name old old_size new_size)
    (hosize : db.usize old_dir .size = some old_size)
    (hnsize : db.usize new_dir .size = some new_size)
    (hentry : db.entry old_dir old_name = some old.number)
    (hperm : db.u16 old.number .mode = some old.perm) (hod : db.IsDir old_dir)
    (hnd : db.IsDir new_dir) (h1 : old_name ≠ ".") (h2 : old_name ≠ "..") (h3 : new_name ≠ ".")
    (h4 : new_name ≠ "..") (hfree : db.get new_dir (generate_data_key new_name) = none) :
    Names db' ∧ (Bare db → Bare db') := by
  have ⟨hHas, hmode, hlinks, hsizes, hget⟩ := hm
  have hk := proper_name h1 h2
  have hk' := proper_name h3 h4
  have hedge := graph_entry hod hentry
  have hhas : db.Has old.number := h.wf.target hedge
  have hedge' := graph_free hfree
  have hedge₁ := NameGraph.free_unbind (n := old_dir) (k := generate_data_key old_name) hedge'
  have hfin := (h.wf.finite.set old_dir (generate_data_key old_name) none).set new_dir
    (generate_data_key new_name) (some old.number)
  have hkind := hm.isDir
  -- the stored sizes follow the entry to its new place
  have hcount : ∀ n, db.IsDir n → db'.usize n .size =
      some (((db.graph.set old_dir (generate_data_key old_name) none).set new_dir
        (generate_data_key new_name) (some old.number)).size n) := by
    intro n hn
    have hmove := NameGraph.size_move h.wf.finite hedge hedge' n
    have hs := h.size n hn
    rw [hsizes]
    by_cases hnn : n = new_dir
    · subst hnn
      cases hnsize.symm.trans hs
      by_cases hon : old_dir = n
      · simp only [hon, if_true, Nat.add_right_cancel_iff] at hmove ⊢
        rw [hmove]
      · simp only [if_neg (Ne.symm hon), if_true, Nat.add_zero] at hmove
        simp only [if_true, if_neg hon, hmove]
    · by_cases hno : n = old_dir
      · subst hno
        cases hosize.symm.trans hs
        simp only [if_true, if_neg hnn, Nat.add_zero] at hmove
        simp only [if_neg hnn, if_true, ← hmove, Nat.add_sub_cancel]
      · simp only [if_neg hno, if_neg hnn, Nat.add_zero] at hmove
        simp only [if_neg hnn, if_neg hno, hs, hmove]
  have hnode : {n | db'.Has n} = db.graph.node := Set.ext hHas
  refine ⟨?_, fun hbare => ⟨fun n k hn hk => ?_, fun n m hn hm => ?_⟩⟩
  · by_cases hd : db.IsDir old.number
    · have hes := hm.edits_dir hod hnd hperm hd
      have hback : ((db.graph.set old_dir (generate_data_key old_name) none).set new_dir
          (generate_data_key new_name) (some old.number)).edge old.number dotdot =
          some old_dir := by
        rw [NameGraph.edge_set, if_neg (fun e => hk'.2 e.2.symm), NameGraph.edge_set,
          if_neg (fun e => hk.2 e.2.symm)]
        exact h.wf.back hk hd hedge
      refine ⟨?_, hes.decodes h.decodes, fun n hn => ?_, fun j hj hjd => ?_⟩
      · rw [hes.graph, hnode]
        exact h.wf.moveDir dot_ne_dotdot hk hk' hedge hd hnd hedge'
      · rw [hes.graph, hcount n ((hkind n).mp hn), ← NameGraph.size_rebind hfin hback new_dir n]
        rfl
      · have hjd' : ¬ db.IsDir j := fun e => hjd ((hkind j).mpr e)
        obtain ⟨l, hl, hcnt⟩ := h.links j ((hHas j).mp hj) hjd'
        have hjo : j ≠ old_dir := fun e => hjd' (e ▸ hod)
        have hjn : j ≠ new_dir := fun e => hjd' (e ▸ hnd)
        refine ⟨l, (hlinks j).trans hl, ?_⟩
        rw [hcnt, hes.graph, ← NameGraph.refs_move h.wf.finite hedge hedge' j,
          ← NameGraph.refs_rebind_of_ne hfin hback hjo hjn]
        rfl
    · have hes := hm.edits_leaf hod hnd hd
      refine ⟨?_, hes.decodes h.decodes, fun n hn => ?_, fun j hj hjd => ?_⟩
      · rw [hes.graph, hnode]
        have hwf := h.wf.unbind (N := db.graph.node) hk hedge hd (fun a ha _ => ha) (.inl hhas)
        exact hwf.bind hnd hk' (fun a ha => ha) hhas hd hedge₁
      · rw [hes.graph]
        exact hcount n ((hkind n).mp hn)
      · obtain ⟨l, hl, hcnt⟩ := h.links j ((hHas j).mp hj) (fun e => hjd ((hkind j).mpr e))
        refine ⟨l, (hlinks j).trans hl, ?_⟩
        rw [hcnt, hes.graph, ← NameGraph.refs_move h.wf.finite hedge hedge' j]
        rfl
  · have hn' : ¬ db.IsDir n := fun e => hn ((hkind n).mpr e)
    have hnn : n ≠ new_dir := fun e => hn' (e ▸ hnd)
    have hno : n ≠ old_dir := fun e => hn' (e ▸ hod)
    have hbit : ¬ (old.perm.contains DbfsPermission.S_IFDIR = true ∧ n = old.number ∧
        k = dotdot) := by
      rintro ⟨hbit, rfl, _⟩
      rw [hbare.bit _ _ hn' hperm] at hbit
      cases hbit
    rw [hget n k hk, if_neg hbit]
    simpa [edited, hnn, hno] using hbare.entries n k hn' hk
  · exact hbare.bit n m (fun e => hn ((hkind n).mpr e)) ((hmode n).symm.trans hm)

/-- A rename onto a free name takes the entry away and binds it anew; a directory gets its
parent entry along. -/
theorem rename_names {new : RenameNew} {db₁ db₂ : Db} (h : Names db)
    (hold : rename_old_tx uid gid old_dir old_name db = .Ok (old, db₁))
    (hnew : rename_new_tx uid gid new_dir new_name db = .Ok (new, db₂))
    (htx : rename_move_tx old_dir old_name new_dir new_name old new t db = .Ok (u, db'))
    (hod : db.IsDir old_dir) (hnd : db.IsDir new_dir) (h1 : old_name ≠ ".") (h2 : old_name ≠ "..")
    (h3 : new_name ≠ ".") (h4 : new_name ≠ "..")
    (hfree : db.get new_dir (generate_data_key new_name) = none) :
    Names db' ∧ (Bare db → Bare db') := by
  obtain ⟨_, hentry, hhas, _, hperm⟩ := rename_old_tx_spec hold
  have hnone : new.number = none := by
    obtain ⟨_, _, _, ⟨hnone, _⟩ | ⟨i, _, hi, _⟩⟩ := rename_new_tx_spec hnew
    · exact hnone
    · rw [Db.entry, Db.ref, hfree] at hi
      cases hi
  obtain ⟨old_size, new_size, hosize, hpos, hnsize, hlt, rfl⟩ := rename_move_tx_spec hnone htx
  refine Moved.names h (rename_moved_moved (Db.has_of_isDir hod) (Db.has_of_isDir hnd) ?_ ?_ hhas)
    hosize hnsize hentry hperm hod hnd h1 h2 h3 h4 hfree
  · have := Db.lt_of_usize hosize
    omega
  · split_ifs with e
    · exact Db.lt_of_usize hnsize
    · exact hlt e

end rename

section create

variable {n dir : UInt64} {permission : DbfsPermission} {target_path : Option String}
  {dev : Option UInt32} {r : UInt32 × DbfsPermission × UInt32 × Nat × Option UInt32}
  {ty : DbfsFileType}

/-- What create leaves, bucket by bucket. -/
structure Created (db db' : Db) (n dir : UInt64) (name : String) (ty : DbfsFileType)
    (permission : DbfsPermission) : Prop where
  fresh : ¬ db.Has n
  has (m : UInt64) : db'.Has m ↔ m = n ∨ db.Has m
  mode (m : UInt64) : m ≠ n → db'.u16 m .mode = db.u16 m .mode
  links (m : UInt64) : m ≠ n → db'.u32 m .hard_links = db.u32 m .hard_links
  size (m : UInt64) : m ≠ n → db'.usize m .size =
    if m = dir then (db.usize m .size).map (· + 1) else db.usize m .size
  get (m : UInt64) (k : Bytes) : m ≠ n → is_data_key k = true →
    db'.get m k = edited db [⟨dir, generate_data_key name, some n⟩] m k
  new_kind : db'.kind n = some ty
  new_bit (m : DbfsPermission) : db'.u16 n .mode = some m →
    m.contains DbfsPermission.S_IFDIR = permission.contains DbfsPermission.S_IFDIR
  new_counts : (ty = .Directory → db'.usize n .size = some 2) ∧
    (ty ≠ .Directory → db'.u32 n .hard_links = some 1)
  new_get (k : Bytes) : is_data_key k = true →
    db'.get n k = ((db.create n).puts n (new_dots permission n dir)).get n k

theorem create_created [Features] (hty : permission &&& DbfsPermission.S_IFMT = ty.bits)
    (htx : create_tx n dir name uid gid t permission target_path dev db = .Ok (r, db'))
    (hdir : db.Has dir) : Created db db' n dir name ty permission := by
  obtain ⟨_, p_gid, p_mode, size, counts, _, hsize, hlt, hnew⟩ := create_tx_spec htx
  obtain ⟨hn, hcounts, hhas, hother, hmode, husize, hlinks, hget⟩ := new_inode_tx_spec hnew
  have htype := (new_mode_type uid p_mode permission).trans hty
  have hcounts_ty := new_counts_of_type hty hcounts
  have hkeys : ∀ k, is_data_key k = true → ∀ f : Field, k ≠ f.key := fun k hk f =>
    ne_of_is_data_key hk (by simp)
  constructor
  · simpa [create_entry] using hn
  · intro m
    simpa [create_entry] using hhas m
  · intro m hm
    rw [Db.u16, hother m _ hm]
    simp [create_entry, Db.u16]
  · intro m hm
    rw [Db.u32, hother m _ hm]
    simp [create_entry, Db.u32]
  · intro m hm
    rw [Db.usize, hother m _ hm]
    by_cases hmd : m = dir
    · subst hmd
      simp [create_entry, hdir, usize_be hlt, hsize]
    · simp [create_entry, hmd, Db.usize]
  · intro m k hm hk
    rw [hother m k hm]
    simp [create_entry, edited, hdir, hkeys k hk]
  · rw [Db.kind, hmode]
    exact DbfsFileType.from_bits htype
  · intro m hm
    rw [hmode] at hm
    cases hm
    rw [DbfsPermission.contains_type _ (by decide), new_mode_type,
      ← DbfsPermission.contains_type _ (by decide)]
  · refine ⟨fun e => ?_, fun e => ?_⟩
    · rw [husize, hcounts_ty.1 e]
      exact usize_be (by decide)
    · rw [hlinks, hcounts_ty.2.1 e]
  · intro k hk
    rw [hget k (hkeys k hk)]
    unfold new_dots
    split_ifs
    · simp [create_entry]
    · simp [create_entry]

theorem Created.isDir (h : Created db db' n dir name ty permission) {m : UInt64} (hm : m ≠ n) :
    db'.IsDir m ↔ db.IsDir m := isDir_congr (h.mode m hm)

theorem Created.new_isDir (h : Created db db' n dir name ty permission) :
    db'.IsDir n ↔ ty = .Directory := by
  rw [Db.IsDir, h.new_kind, Option.some.injEq]

/-- The stored sizes and link counts of the other inodes, against a graph that counts the new
entry. -/
theorem Created.size_old (hc : Created db db' n dir name ty permission) (h : Names db)
    {m : UInt64} (hm : db'.IsDir m) (hmn : m ≠ n) :
    db'.usize m .size = some (db.graph.size m + if m = dir then 1 else 0) := by
  rw [hc.size m hmn, h.size m ((hc.isDir hmn).mp hm)]
  split_ifs <;> rfl

section new_dir

variable (hc : Created db db' n dir name .Directory permission)
  (hdots : new_dots permission n dir = [(dot, ino_bytes n), (dotdot, ino_bytes dir)])

include hc

theorem Created.isDir_iff (m : UInt64) : db'.IsDir m ↔ m = n ∨ db.IsDir m := by
  by_cases hmn : m = n
  · subst hmn
    simp [hc.new_isDir]
  · simp [hc.isDir hmn, hmn]

include hdots

theorem Created.get_new {k : Bytes} (hk : is_data_key k = true) : db'.get n k =
    if k = dotdot then some (ino_bytes dir) else if k = dot then some (ino_bytes n) else none := by
  rw [hc.new_get k hk, hdots]
  simp

theorem Created.graph_dir (hdir : db.IsDir dir) :
    db'.graph = NameGraph.addDir dot dotdot db.graph dir (generate_data_key name) n := by
  have hdn : dir ≠ n := fun e => hc.fresh (e ▸ Db.has_of_isDir hdir)
  have hdata : is_data_key dot = true ∧ is_data_key dotdot = true := by simp [dot, dotdot]
  have hempty : ∀ k, db.graph.edge n k = none := fun k =>
    graph_free (Db.get_of_not_has hc.fresh k)
  refine graph_ext (fun m => hc.has m) hc.isDir_iff (fun m k hm hk => ?_) (fun m k j he => ?_)
  · by_cases hmn : m = n
    · subst hmn
      rw [Db.ref, hc.get_new hdots hk]
      change _ = if m = m ∧ k = dotdot then some dir else if m = m ∧ k = dot then some m
        else if m = dir ∧ k = generate_data_key name then some m else db.graph.edge m k
      simp only [true_and, if_neg (fun e : m = dir ∧ _ => hdn e.1.symm), hempty]
      split_ifs <;> simp
    · rw [Db.ref, hc.get m k hmn hk, edited_ref db _ ((hc.isDir hmn).mp hm) hk]
      change _ = if m = n ∧ k = dotdot then some dir else if m = n ∧ k = dot then some n
        else if m = dir ∧ k = generate_data_key name then some n else db.graph.edge m k
      rw [if_neg (fun e => hmn e.1), if_neg (fun e => hmn e.1)]
      rfl
  · change (if m = n ∧ k = dotdot then some dir else if m = n ∧ k = dot then some n
        else if m = dir ∧ k = generate_data_key name then some n else db.graph.edge m k) = _ at he
    rw [hc.isDir_iff]
    split_ifs at he with e1 e2 e3
    · exact ⟨.inl e1.1, e1.2 ▸ hdata.2⟩
    · exact ⟨.inl e2.1, e2.2 ▸ hdata.1⟩
    · exact ⟨.inr (e3.1 ▸ hdir), by rw [e3.2]; simp⟩
    · exact ⟨.inr (Db.graph_edge_some he).1, (Db.graph_edge_some he).2.1⟩

theorem Created.decodes_dir (h : db.Decoded) : db'.Decoded := by
  intro m k v hm hv hk
  by_cases hmn : m = n
  · subst hmn
    rw [hc.get_new hdots hk] at hv
    split_ifs at hv <;> cases hv
    · exact ⟨dir, parse_ino_bytes dir⟩
    · exact ⟨m, parse_ino_bytes m⟩
  · rw [hc.get m k hmn hk] at hv
    simp only [edited, Option.map_some] at hv
    split_ifs at hv
    · cases hv
      exact ⟨n, parse_ino_bytes n⟩
    · exact h m k v ((hc.isDir hmn).mp hm) hv hk

/-- A new directory. -/
theorem create_dir_names (h : Names db) (hdir : db.IsDir dir) (h1 : name ≠ ".") (h2 : name ≠ "..")
    (hfree : db.get dir (generate_data_key name) = none) : Names db' := by
  have hedge := graph_free hfree
  have hdn : dir ≠ n := fun e => hc.fresh (e ▸ Db.has_of_isDir hdir)
  have hgraph := hc.graph_dir hdots hdir
  refine ⟨?_, hc.decodes_dir hdots h.decodes, fun m hm => ?_, fun j hj hjd => ?_⟩
  · rw [hgraph]
    exact h.wf.addDir dot_ne_dotdot hdir (proper_name h1 h2) hedge hc.fresh
  · rw [hgraph, h.wf.size_addDir dot_ne_dotdot hdir hc.fresh hedge]
    by_cases hmn : m = n
    · subst hmn
      rw [hc.new_counts.1 rfl, h.wf.size_fresh hc.fresh, if_neg hdn.symm]
      simp
    · rw [hc.size_old h hm hmn, if_neg hmn]
      rfl
  · rw [hc.isDir_iff, not_or] at hjd
    have hj' : db.Has j := ((hc.has j).mp hj).resolve_left hjd.1
    rw [hgraph, h.wf.refs_addDir dot_ne_dotdot hdir hc.fresh hedge hjd.2 hjd.1, hc.links j hjd.1]
    exact h.links j hj' hjd.2

end new_dir

/-- A new inode that is no directory. -/
theorem create_leaf_names (h : Names db) (hc : Created db db' n dir name ty permission)
    (hty : ty ≠ .Directory) (hdir : db.IsDir dir) (h1 : name ≠ ".") (h2 : name ≠ "..")
    (hfree : db.get dir (generate_data_key name) = none) : Names db' := by
  have hedge := graph_free hfree
  have hnd : ¬ db.IsDir n := fun e => hc.fresh (Db.has_of_isDir e)
  have hold : ∀ {m}, db.IsDir m → m ≠ n := fun hm e => hnd (e ▸ hm)
  have hes : Edits db db' [⟨dir, generate_data_key name, some n⟩] :=
    { kind := fun m => by
        by_cases hmn : m = n
        · subst hmn
          simp [hc.new_isDir, hty, hnd]
        · exact hc.isDir hmn
      place := by simp [hdir]
      get := fun m k hm hk => hc.get m k (hold hm) hk }
  refine ⟨?_, hes.decodes h.decodes, fun m hm => ?_, fun j hj hjd => ?_⟩
  · rw [hes.graph]
    exact h.wf.bind hdir (proper_name h1 h2) (fun m hm => (hc.has m).mpr (.inr hm))
      ((hc.has n).mpr (.inl rfl)) hnd hedge
  · rw [hes.graph, hc.size_old h hm (hold ((hes.kind m).mp hm)),
      ← NameGraph.size_bind h.wf.finite hedge]
    rfl
  · rw [hes.graph]
    change ∃ x : UInt32, _ ∧ x.toNat =
      (db.graph.set dir (generate_data_key name) (some n)).refs j
    rw [NameGraph.refs_bind h.wf.finite hedge]
    by_cases hjn : j = n
    · subst hjn
      exact ⟨1, hc.new_counts.2 hty, by simp [h.wf.refs_fresh hc.fresh]⟩
    · rw [if_neg hjn, hc.links j hjn]
      exact h.links j (((hc.has j).mp hj).resolve_left hjn) (fun e => hjd ((hes.kind j).mpr e))

theorem create_names [Features] (h : Names db)
    (hty : permission &&& DbfsPermission.S_IFMT = ty.bits)
    (htx : create_tx n dir name uid gid t permission target_path dev db = .Ok (r, db'))
    (hdir : db.IsDir dir) (h1 : name ≠ ".") (h2 : name ≠ "..")
    (hfree : db.get dir (generate_data_key name) = none) :
    Names db' ∧ (ty ≠ .Socket → ty ≠ .BlockDevice → Bare db → Bare db') := by
  have hc := create_created hty htx (Db.has_of_isDir hdir)
  have hbit := contains_dir_bit hty
  refine ⟨?_, fun hs hb hbare => ⟨fun m k hm hk => ?_, fun m p hm hp => ?_⟩⟩
  · by_cases hd : ty = .Directory
    · subst hd
      exact create_dir_names hc (by rw [new_dots, if_pos (hbit.mpr (.inl rfl))]; rfl) h hdir h1 h2
        hfree
    · exact create_leaf_names h hc hd hdir h1 h2 hfree
  · by_cases hmn : m = n
    · subst hmn
      rw [hc.new_isDir] at hm
      rw [hc.new_get k hk, new_dots, if_neg (by rw [hbit]; simp [hm, hs, hb])]
      simp
    · have hm' : ¬ db.IsDir m := fun e => hm ((hc.isDir hmn).mpr e)
      have hmd : m ≠ dir := fun e => hm' (e ▸ hdir)
      rw [hc.get m k hmn hk]
      simpa [edited, hmd] using hbare.entries m k hm' hk
  · by_cases hmn : m = n
    · subst hmn
      rw [hc.new_isDir] at hm
      rw [hc.new_bit p hp, ← Bool.not_eq_true, hbit]
      simp [hm, hs, hb]
    · exact hbare.bit m p (fun e => hm ((hc.isDir hmn).mpr e)) ((hc.mode m hmn).symm.trans hp)

end create

end steps

end dbfs2
