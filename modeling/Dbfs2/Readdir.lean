-- Listing directories (file.rs, fuse/file.rs and the table of common.rs). A listing
-- walks the keys of a bucket; the place where it stopped is kept in one table for
-- the whole process, under the number of the directory.
import Dbfs2.Names

namespace dbfs2

open common Tx inode

namespace common

structure DbfsDirEntry where
  ino : UInt64
  offset : Nat
  kind : DbfsFileType
  name : String
  attr : Option DbfsAttr
  deriving DecidableEq, Repr

end common

/-- The bucket that a cursor walks. -/
def Tx.bucket (n : UInt64) : Tx Bucket := fun db =>
  (DbfsResult.unwrap (db.inodes.find? n)).bind fun b => .Ok (b, db)

@[simp]
theorem Tx.bucket_ok {n : UInt64} {b : Bucket} {db db' : Db} :
    bucket n db = .Ok (b, db') ↔ db.inodes.find? n = some b ∧ db' = db := by
  unfold bucket
  rcases db.inodes.find? n with _ | c <;> simp [DbfsResult.unwrap, DbfsResult.bind, eq_comm]

namespace file

/-! ## The table of places -/

def push_readdir_table (ino : UInt64) (info : ReadDirInfo) : Fs Unit := fun s =>
  (.Ok (), { s with GLOBAL_READDIR_TABLE := s.GLOBAL_READDIR_TABLE.insert ino info })

def pop_readdir_table (ino : UInt64) : Fs Unit := fun s =>
  (.Ok (), { s with GLOBAL_READDIR_TABLE := s.GLOBAL_READDIR_TABLE.erase ino })

def get_readdir_table (s : Sys) (ino : UInt64) : Option ReadDirInfo :=
  s.GLOBAL_READDIR_TABLE.find? ino

/-! ## Reading a directory -/

/-- One entry of a listing. Its kind comes from the mode, or from the attributes that go with it. -/
def readdir_entry (is_readdir_plus : Bool) (key value : Bytes) (offset : Nat) :
    Tx DbfsDirEntry := do
  let name ← unwrap ((after_colon key).bind from_utf8)
  let ino ← unwrap (parse_ino value)
  let _offset ← add_usize offset 1
  if is_readdir_plus then do
    let attr ← unwrap_ok (attr_tx ino)
    pure { ino, offset, kind := attr.kind, name, attr := some attr }
  else do
    unwrap_ok (get_bucket ino)
    let mode ← read_u16 ino .mode
    let kind ← unwrap (DbfsFileType.from mode)
    pure { ino, offset, kind, name, attr := none }

/-- The walk of the cursor to the end of the bucket. The length of the caller's buffer is taken
after it is cleared, so that it never ends the walk. -/
def readdir_walk (is_readdir_plus : Bool) :
    List (Bytes × Bytes) → Nat → Tx (List DbfsDirEntry)
  | [], _ => pure []
  | (key, value) :: rest, offset =>
    if is_data_key key then do
      let entry ← readdir_entry is_readdir_plus key value offset
      let entries ← readdir_walk is_readdir_plus rest (offset + 1)
      pure (entry :: entries)
    else readdir_walk is_readdir_plus rest offset

/-- What a cursor still gives after it was moved to a saved place and took the key there. -/
def resume (b : Bucket) (info : ReadDirInfo) (offset : Nat) : Tx (List (Bytes × Bytes)) := do
  let next ← add_usize info.offset 1
  assert (offset == next)
  let key := generate_data_key info.key
  assert (b.find? key).isSome
  match b.entriesFrom key with
  | [] => unwrap none
  | _ :: rest => pure rest

/-- The cursor of a listing: from the saved place on, or from the first key. -/
def cursor (b : Bucket) (offset : Nat) : Option ReadDirInfo → Tx (List (Bytes × Bytes))
  | none => pure b.entries
  | some info => resume b info offset

def readdir_tx (ino : UInt64) (readdir_info : Option ReadDirInfo) (offset : Nat)
    (is_readdir_plus : Bool) : Tx (List DbfsDirEntry) := do
  get_bucket ino
  let b ← bucket ino
  let pairs ← cursor b offset readdir_info
  readdir_walk is_readdir_plus pairs offset

def dbfs_common_readdir (ino : UInt64) (offset : Nat) (is_readdir_plus : Bool) :
    Fs (List DbfsDirEntry) := fun s =>
  Fs.read (readdir_tx ino (get_readdir_table s ino) offset is_readdir_plus) s

/-! ## The calls of the FUSE front end -/

/-- A reply: whether `add` finds it too full for an entry, from what it holds already. -/
abbrev Reply := List DbfsDirEntry → DbfsDirEntry → Bool

/-- Adds entries to a reply that holds `sent`, and gives what it then holds and the entry that found
it full. The offset of an entry goes to the kernel as `i64`; the first one that is too large for
`x.offset as i64 + 1` is `i64::MAX`. -/
def add_entries (is_readdir_plus : Bool) (full : Reply) :
    List DbfsDirEntry → List DbfsDirEntry → Option (List DbfsDirEntry × Option DbfsDirEntry)
  | [], sent => some (sent, none)
  | x :: rest, sent =>
    if (is_readdir_plus = true → x.attr.isSome = true) ∧ x.offset + 1 < 2 ^ 63 then
      if full sent x then some (sent, some x)
      else add_entries is_readdir_plus full rest (sent ++ [x])
    else none

/-- The loop of a call: what the reply holds in the end, or `none` when it is an error. -/
def readdir_loop (is_readdir_plus : Bool) (ino : UInt64) (full : Reply) :
    Nat → Nat → List DbfsDirEntry → Fs (Option (List DbfsDirEntry))
  | 0, _, _ => Fs.unwrap none
  | fuel + 1, offset, sent => fun s =>
    match dbfs_common_readdir ino offset is_readdir_plus s with
    | (.Panic, s) => (.Panic, s)
    | (.Err _, s) => (.Ok none, s)
    | (.Ok entries, s) =>
      match entries.getLast? with
      | none => (.Ok (some sent), s)
      | some last => (do
          let (sent, stop) ← Fs.unwrap (add_entries is_readdir_plus full entries sent)
          match stop with
          | some x => do
            push_readdir_table ino ⟨x.offset, x.name⟩
            pure (some sent)
          | none => do
            push_readdir_table ino ⟨last.offset, last.name⟩
            readdir_loop is_readdir_plus ino full fuel (last.offset + 1) sent) s

/-- Every turn but the last lists an entry after those of the turns before it, so there are at most
as many turns as the bucket has keys, and one. -/
def fuse_readdir (is_readdir_plus : Bool) (ino : UInt64) (offset : Int) (repl : Reply) :
    Fs (Option (List DbfsDirEntry)) := fun s =>
  if 0 ≤ offset then
    readdir_loop is_readdir_plus ino repl
      (((s.db.inodes.find? ino).map (·.entries.length)).getD 0 + 2) offset.toNat [] s
  else (.Panic, s)

def dbfs_fuse_readdir := fuse_readdir false

def dbfs_fuse_readdirplus := fuse_readdir true

def dbfs_fuse_releasedir (ino : UInt64) : Fs Unit := pop_readdir_table ino

end file

/-! ## What a listing shows -/

/-- The entry of a listing for a binding. -/
structure Shows (db : Db) (plus : Bool) (kv : Bytes × Bytes) (e : DbfsDirEntry) : Prop where
  key : kv.1 = generate_data_key e.name
  value : parse_ino kv.2 = some e.ino
  kind : db.kind e.ino = some e.kind
  attr : if plus then ∃ a, attr_tx e.ino db = .Ok (a, db) ∧ e.attr = some a else e.attr = none

/-- The listing of some bindings, with offsets from `first` on. -/
def ListingOf (db : Db) (plus : Bool) (first : Nat) (pairs : List (Bytes × Bytes))
    (es : List DbfsDirEntry) : Prop :=
  List.Forall₂ (Shows db plus) pairs es ∧ es.map (·.offset) = List.range' first es.length

open file

theorem as_bytes_from_utf8 {b : Bytes} {s : String} (h : from_utf8 b = some s) :
    as_bytes s = b := by
  unfold from_utf8 String.fromUTF8? at h
  split_ifs at h
  cases h
  simp [as_bytes, String.fromUTF8]

theorem data_key_name {k : Bytes} {name : String} (hk : is_data_key k = true) :
    (after_colon k).bind from_utf8 = some name ↔ k = generate_data_key name := by
  obtain ⟨rest, rfl⟩ := List.isPrefixOf_iff_prefix.mp hk
  have hrest : after_colon (as_bytes "data:" ++ rest) = some rest := rfl
  rw [hrest, Option.bind_some]
  constructor
  · intro h
    rw [generate_data_key, as_bytes_append, as_bytes_from_utf8 h]
  · intro h
    rw [generate_data_key, as_bytes_append] at h
    rw [List.append_cancel_left h]
    exact from_utf8_as_bytes name

section spec

variable {db db' : Db} {plus : Bool} {key value : Bytes} {offset : Nat} {e : DbfsDirEntry}
  {pairs : List (Bytes × Bytes)} {es : List DbfsDirEntry}

theorem attr_tx_kind {n : UInt64} {a : DbfsAttr} (h : attr_tx n db = .Ok (a, db')) :
    db.kind n = some a.kind := by
  obtain ⟨_, _, _, hperm, _, hkind⟩ := attr_tx_spec h
  rw [Db.kind, hperm]
  exact hkind

theorem readdir_entry_ok (hk : is_data_key key = true) :
    readdir_entry plus key value offset db = .Ok (e, db') ↔
      Shows db plus (key, value) e ∧ e.offset = offset ∧ offset + 1 < 2 ^ 64 ∧ db' = db := by
  cases plus with
  | true =>
    simp only [readdir_entry, bind_ok, unwrap_ok_iff, add_usize_ok, if_true, ok_unwrap_ok, pure_ok,
      data_key_name hk]
    constructor
    · rintro ⟨name, _, ⟨hname, rfl⟩, ino, _, ⟨hino, rfl⟩, _, _, ⟨hlt, _, rfl⟩, a, _, hattr, rfl,
        rfl⟩
      have hdb := (attr_tx_spec hattr).1
      subst hdb
      exact ⟨⟨hname, hino, attr_tx_kind hattr, a, hattr, rfl⟩, rfl, hlt, rfl⟩
    · rintro ⟨⟨hname, hino, hkind, a, hattr, ha⟩, rfl, hlt, rfl⟩
      refine ⟨_, _, ⟨hname, rfl⟩, _, _, ⟨hino, rfl⟩, _, _, ⟨hlt, rfl, rfl⟩, a, _, hattr, ?_, rfl⟩
      rw [← ha, Option.some.inj ((attr_tx_kind hattr).symm.trans hkind)]
  | false =>
    simp only [readdir_entry, bind_ok, unwrap_ok_iff, add_usize_ok, Bool.false_eq_true, if_false,
      ok_unwrap_ok, pure_ok, get_bucket_ok, read_u16_ok, data_key_name hk]
    constructor
    · rintro ⟨name, _, ⟨hname, rfl⟩, ino, _, ⟨hino, rfl⟩, _, _, ⟨hlt, _, rfl⟩, _, _, ⟨_, rfl⟩,
        mode, _,
        ⟨hmode, rfl⟩, kind, _, ⟨hkind, rfl⟩, rfl, rfl⟩
      exact ⟨⟨hname, hino, Option.bind_eq_some_iff.mpr ⟨mode, hmode, hkind⟩, rfl⟩, rfl, hlt, rfl⟩
    · rintro ⟨⟨hname, hino, hkind, ha⟩, rfl, hlt, rfl⟩
      obtain ⟨mode, hmode, hkind⟩ := Option.bind_eq_some_iff.mp hkind
      refine ⟨_, _, ⟨hname, rfl⟩, _, _, ⟨hino, rfl⟩, _, _, ⟨hlt, rfl, rfl⟩, (), _,
        ⟨Db.has_of_u16 hmode, rfl⟩, mode, _, ⟨hmode, rfl⟩, _, _, ⟨hkind, rfl⟩, ?_, rfl⟩
      rw [← show e.attr = none from ha]

theorem listingOf_cons {kv : Bytes × Bytes} {first : Nat} :
    ListingOf db plus first (kv :: pairs) es ↔
      ∃ x xs, es = x :: xs ∧ Shows db plus kv x ∧ x.offset = first ∧
        ListingOf db plus (first + 1) pairs xs := by
  constructor
  · rintro ⟨hall, hoff⟩
    obtain ⟨x, xs, hx, hxs, rfl⟩ := List.forall₂_cons_left_iff.mp hall
    rw [List.map_cons, List.length_cons, List.range'_succ, List.cons.injEq] at hoff
    exact ⟨x, xs, rfl, hx, hoff.1, hxs, hoff.2⟩
  · rintro ⟨x, xs, rfl, hx, hoff, hxs, hoffs⟩
    refine ⟨.cons hx hxs, ?_⟩
    rw [List.map_cons, List.length_cons, List.range'_succ, hoff, hoffs]

/-- A walk gives the listing of the data keys, or panics. -/
theorem readdir_walk_ok : readdir_walk plus pairs offset db = .Ok (es, db') ↔
    ListingOf db plus offset (pairs.filter (is_data_key ·.1)) es ∧
      (es = [] ∨ offset + es.length < 2 ^ 64) ∧ db' = db := by
  induction pairs generalizing offset es db' with
  | nil =>
    simp only [readdir_walk, pure_ok, List.filter_nil]
    constructor
    · rintro ⟨rfl, rfl⟩
      exact ⟨⟨.nil, rfl⟩, .inl rfl, rfl⟩
    · rintro ⟨⟨hall, _⟩, _, rfl⟩
      exact ⟨List.forall₂_nil_left_iff.mp hall, rfl⟩
  | cons kv pairs ih =>
    obtain ⟨key, value⟩ := kv
    unfold readdir_walk
    split_ifs with hk
    · rw [List.filter_cons_of_pos (by exact hk), listingOf_cons]
      simp only [bind_ok, readdir_entry_ok hk, pure_ok]
      constructor
      · rintro ⟨x, _, ⟨hx, hoff, hlt, rfl⟩, xs, _, hwalk, rfl, rfl⟩
        obtain ⟨hxs, hlen, rfl⟩ := ih.mp hwalk
        refine ⟨⟨x, xs, rfl, hx, hoff, hxs⟩, .inr ?_, rfl⟩
        rcases hlen with rfl | hlen
        · exact hlt
        · simp only [List.length_cons]
          omega
      · rintro ⟨⟨x, xs, rfl, hx, hoff, hxs⟩, hlen, rfl⟩
        have hlen := hlen.resolve_left (by simp)
        rw [List.length_cons] at hlen
        exact ⟨x, _, ⟨hx, hoff, by omega, rfl⟩, xs, _, ih.mpr ⟨hxs, .inr (by omega), rfl⟩, rfl, rfl⟩
    · rw [List.filter_cons_of_neg (by exact hk)]
      exact ih

end spec

/-! ## Listings of bindings -/

section listing

variable {db : Db} {plus : Bool} {first : Nat} {pairs : List (Bytes × Bytes)}
  {es : List DbfsDirEntry}

theorem listing_exists (h : ∀ kv ∈ pairs, ∃ e, Shows db plus kv e) (first : Nat) :
    ∃ es, ListingOf db plus first pairs es := by
  induction pairs generalizing first with
  | nil => exact ⟨[], .nil, rfl⟩
  | cons kv pairs ih =>
    obtain ⟨e, he⟩ := h kv List.mem_cons_self
    obtain ⟨es, hes⟩ := ih (fun x hx => h x (List.mem_cons_of_mem _ hx)) (first + 1)
    exact ⟨{ e with offset := first } :: es, listingOf_cons.mpr
      ⟨_, es, rfl, ⟨he.key, he.value, he.kind, he.attr⟩, rfl, hes⟩⟩

theorem ListingOf.length (h : ListingOf db plus first pairs es) : es.length = pairs.length :=
  h.1.length_eq.symm

theorem ListingOf.shown (h : ListingOf db plus first pairs es) {kv : Bytes × Bytes}
    (hkv : kv ∈ pairs) : ∃ e ∈ es, Shows db plus kv e := by
  induction pairs generalizing first es with
  | nil => cases hkv
  | cons x pairs ih =>
    obtain ⟨e, es, rfl, he, _, hes⟩ := listingOf_cons.mp h
    rcases List.mem_cons.mp hkv with rfl | hkv
    · exact ⟨e, List.mem_cons_self, he⟩
    · obtain ⟨y, hy, hs⟩ := ih hes hkv
      exact ⟨y, List.mem_cons_of_mem _ hy, hs⟩

theorem ListingOf.stored (h : ListingOf db plus first pairs es) {e : DbfsDirEntry}
    (he : e ∈ es) : ∃ kv ∈ pairs, Shows db plus kv e := by
  induction pairs generalizing first es with
  | nil =>
    rw [List.forall₂_nil_left_iff.mp h.1] at he
    cases he
  | cons x pairs ih =>
    obtain ⟨y, es, rfl, hy, _, hes⟩ := listingOf_cons.mp h
    rcases List.mem_cons.mp he with rfl | he
    · exact ⟨x, List.mem_cons_self, hy⟩
    · obtain ⟨kv, hkv, hs⟩ := ih hes he
      exact ⟨kv, List.mem_cons_of_mem _ hkv, hs⟩

/-- A listing is in the order of the keys. -/
theorem ListingOf.sorted (h : ListingOf db plus first pairs es)
    (hp : pairs.Pairwise fun a b => a.1 < b.1) :
    es.Pairwise fun e e' => generate_data_key e.name < generate_data_key e'.name := by
  induction pairs generalizing first es with
  | nil =>
    rw [List.forall₂_nil_left_iff.mp h.1]
    exact .nil
  | cons kv pairs ih =>
    obtain ⟨e, es, rfl, he, _, hes⟩ := listingOf_cons.mp h
    rw [List.pairwise_cons] at hp ⊢
    refine ⟨fun e' he' => ?_, ih hes hp.2⟩
    obtain ⟨kv', hkv', hs⟩ := hes.stored he'
    rw [← he.key, ← hs.key]
    exact hp.1 kv' hkv'

theorem generate_data_key_lt {a b : String} :
    generate_data_key a < generate_data_key b ↔ as_bytes a < as_bytes b := by
  rw [generate_data_key_eq, generate_data_key_eq]
  simp

end listing

/-! ## Places -/

/-- The bindings that a listing from a place on still shows. -/
def remaining (b : Bucket) : Option ReadDirInfo → List (Bytes × Bytes)
  | none => b.entries.filter (is_data_key ·.1)
  | some info => (b.entriesAfter (generate_data_key info.key)).filter (is_data_key ·.1)

/-- The listing may go on at an offset: there is no saved place, or the one right before the offset,
whose name is still there. -/
def Resumes (b : Bucket) (offset : Nat) : Option ReadDirInfo → Prop
  | none => True
  | some info => offset = info.offset + 1 ∧ offset < 2 ^ 64 ∧
      (b.find? (generate_data_key info.key)).isSome

section place

variable {s s' : Sys} {b : Bucket} {ino : UInt64} {offset : Nat} {plus : Bool}
  {es : List DbfsDirEntry}

theorem resume_ok {info : ReadDirInfo} {pairs : List (Bytes × Bytes)} {db db' : Db} :
    resume b info offset db = .Ok (pairs, db') ↔ Resumes b offset (some info) ∧
      pairs = b.entriesAfter (generate_data_key info.key) ∧ db' = db := by
  simp only [resume, bind_ok, add_usize_ok, assert_ok, beq_iff_eq, Resumes]
  constructor
  · rintro ⟨_, _, ⟨hlt, rfl, rfl⟩, _, _, ⟨rfl, rfl⟩, _, _, ⟨hfind, rfl⟩, h⟩
    obtain ⟨v, hv⟩ := Option.isSome_iff_exists.mp hfind
    rw [OrdMap.entriesFrom_of_find? hv] at h
    obtain ⟨rfl, rfl⟩ := pure_ok.mp h
    exact ⟨⟨rfl, hlt, hfind⟩, rfl, rfl⟩
  · rintro ⟨⟨rfl, hlt, hfind⟩, rfl, rfl⟩
    refine ⟨_, _, ⟨hlt, rfl, rfl⟩, (), _, ⟨rfl, rfl⟩, (), _, ⟨hfind, rfl⟩, ?_⟩
    obtain ⟨v, hv⟩ := Option.isSome_iff_exists.mp hfind
    rw [OrdMap.entriesFrom_of_find? hv]
    rfl

/-- When `dbfs_common_readdir` returns, and what. -/
theorem readdir_ok : dbfs_common_readdir ino offset plus s = (.Ok es, s') ↔
    s' = s ∧ ∃ b, s.db.inodes.find? ino = some b ∧
      Resumes b offset (get_readdir_table s ino) ∧
      ListingOf s.db plus offset (remaining b (get_readdir_table s ino)) es ∧
      (es = [] ∨ offset + es.length < 2 ^ 64) := by
  unfold dbfs_common_readdir
  rw [Fs.read_ok]
  constructor
  · rintro ⟨⟨db', h⟩, rfl⟩
    refine ⟨rfl, ?_⟩
    simp only [readdir_tx, bind_ok, get_bucket_ok, bucket_ok] at h
    obtain ⟨_, _, ⟨_, rfl⟩, b, _, ⟨hb, rfl⟩, pairs, _, hpairs, h⟩ := h
    rcases hinfo : get_readdir_table s' ino with _ | info
    · rw [hinfo] at hpairs
      obtain ⟨rfl, rfl⟩ := pure_ok.mp hpairs
      obtain ⟨hl, hlen, _⟩ := readdir_walk_ok.mp h
      exact ⟨b, hb, trivial, hl, hlen⟩
    · rw [hinfo] at hpairs
      obtain ⟨hres, rfl, rfl⟩ := resume_ok.mp hpairs
      obtain ⟨hl, hlen, _⟩ := readdir_walk_ok.mp h
      exact ⟨b, hb, hres, hl, hlen⟩
  · rintro ⟨rfl, b, hb, hres, hl, hlen⟩
    refine ⟨⟨s'.db, ?_⟩, rfl⟩
    have hhas : s'.db.Has ino := Store.has_iff.mpr ⟨b, hb⟩
    simp only [readdir_tx, bind_ok, get_bucket_ok, bucket_ok]
    refine ⟨(), _, ⟨hhas, rfl⟩, b, _, ⟨hb, rfl⟩, ?_⟩
    rcases hinfo : get_readdir_table s' ino with _ | info
    · rw [hinfo] at hl
      exact ⟨_, _, pure_ok.mpr ⟨rfl, rfl⟩, readdir_walk_ok.mpr ⟨hl, hlen, rfl⟩⟩
    · rw [hinfo] at hl hres
      exact ⟨_, _, resume_ok.mpr ⟨hres, rfl, rfl⟩, readdir_walk_ok.mpr ⟨hl, hlen, rfl⟩⟩

end place

end dbfs2
