-- The attributes of the rvfs front end (inode.rs). They stand in the bucket of the inode
-- under keys of their own, and together with their hooks they are a map from names to values.
import Dbfs2.Ops
import Dbfs2.XattrList

namespace dbfs2

open common Tx inode attr file

/-! ## The hooks that read -/

namespace inode

/-- The length of the whole value and the buffer. -/
def dbfs_getattr (inode : Inode) (key : String) (buf : Bytes) : Fs (StrResult (Nat × Bytes)) :=
  Fs.read do
    unwrap_ok (get_bucket inode.number)
    match ← get_kv inode.number (attr_key key) with
    | none => pure (.error "not found")
    | some value => do
      let len := min value.length buf.length
      let buf ← unwrap (copy_from_slice buf 0 value 0 len)
      pure (.ok (value.length, buf))

/-- What the walk over the attributes has: the bytes it filled, those it asks for, and the
buffer. -/
structure ListState where
  len : Nat
  total_attr_buf : Nat
  buf : Bytes

/-- A name that does not fit with its 0 is counted and passed over. -/
def list_name (st : ListState) (key : Bytes) : Option ListState :=
  let key_len := key.length
  let total_attr_buf := st.total_attr_buf + (key_len + 1)
  if st.len + key_len ≥ st.buf.length then some { st with total_attr_buf }
  else do
    let buf ← copy_from_slice st.buf st.len key 0 key_len
    let buf ← copy_from_slice buf (st.len + key_len) [0] 0 1
    pure ⟨st.len + (key_len + 1), total_attr_buf, buf⟩

def list_entry (st : ListState) (kv : Bytes × Bytes) : Option ListState :=
  if starts_with kv.1 "attr:" then (after_colon kv.1).bind (list_name st) else some st

/-- The bytes that all names take and the buffer. -/
def dbfs_listattr (inode : Inode) (buf : Bytes) : Fs (StrResult (Nat × Bytes)) :=
  Fs.read do
    unwrap_ok (get_bucket inode.number)
    let b ← bucket inode.number
    let st ← unwrap (b.entries.foldlM list_entry ⟨0, 0, buf⟩)
    pure (.ok (st.total_attr_buf, st.buf))

end inode

/-! ## The attributes as a map -/

/-- The key of an attribute, from the bytes of its name. -/
def attr_bytes (name : Bytes) : Bytes := as_bytes "attr:" ++ name

/-- The attributes of inode `n`. -/
def Db.attrs (db : Db) (n : UInt64) (name : Bytes) : Option Bytes := db.get n (attr_bytes name)

theorem attr_key_eq (key : String) : attr_key key = attr_bytes (as_bytes key) := by
  rw [attr_key, as_bytes_append, attr_bytes]

theorem attr_bytes_inj {a b : Bytes} : attr_bytes a = attr_bytes b ↔ a = b :=
  List.append_right_inj _

theorem attr_bytes_lt {a b : Bytes} : attr_bytes a < attr_bytes b ↔ a < b := by
  have h : as_bytes "attr:" = [0x61, 0x74, 0x74, 0x72, 0x3a] := by decide
  simp [attr_bytes, h]

theorem after_colon_attr (name : Bytes) : after_colon (attr_bytes name) = some name := rfl

/-- The hooks that write, on any inodes. -/
inductive AttrHook where
  | set (i : Inode) (key : String) (val : Bytes)
  | remove (i : Inode) (key : String)

namespace AttrHook

def after : AttrHook → Sys → Sys
  | set i key val, s => (dbfs_setattr i key val s).2
  | remove i key, s => (dbfs_removeattr i key s).2

/-- What a hook makes of the attributes of inode `n`. -/
def on (n : UInt64) (m : Bytes → Option Bytes) : AttrHook → Bytes → Option Bytes
  | set i key val => if i.number = n then Function.update m (as_bytes key) (some val) else m
  | remove i key => if i.number = n then Function.update m (as_bytes key) none else m

end AttrHook

/-- What no hook touches: the buckets and all keys that are no attributes. -/
structure AttrsOnly (db db' : Db) : Prop where
  has (m : UInt64) : db'.Has m ↔ db.Has m
  get (m : UInt64) (k : Bytes) : (∀ name, k ≠ attr_bytes name) → db'.get m k = db.get m k

namespace AttrsOnly

variable {db db₁ db' : Db}

theorem refl (db : Db) : AttrsOnly db db := ⟨fun _ => .rfl, fun _ _ _ => rfl⟩

theorem trans (h : AttrsOnly db db₁) (h' : AttrsOnly db₁ db') : AttrsOnly db db' :=
  ⟨fun m => (h'.has m).trans (h.has m), fun m k hk => (h'.get m k hk).trans (h.get m k hk)⟩

end AttrsOnly

section hooks

variable {s : Sys} {n i : UInt64} {db : Db}

theorem attrs_put (hi : db.Has i) (name val : Bytes) :
    (db.put i (attr_bytes name) val).attrs n =
      if i = n then Function.update (db.attrs n) name (some val) else db.attrs n := by
  funext name'
  by_cases hin : i = n
  · subst hin
    by_cases hname : name' = name
    · simp [Db.attrs, Db.get_put, hname, hi]
    · simp [Db.attrs, Db.get_put, attr_bytes_inj, hname]
  · simp [Db.attrs, Db.get_put, hin, Ne.symm hin]

theorem attrs_delete (name : Bytes) :
    (db.delete i (attr_bytes name)).attrs n =
      if i = n then Function.update (db.attrs n) name none else db.attrs n := by
  funext name'
  by_cases hin : i = n
  · subst hin
    by_cases hname : name' = name
    · simp [Db.attrs, Db.get_delete, hname]
    · simp [Db.attrs, Db.get_delete, attr_bytes_inj, hname]
  · simp [Db.attrs, Db.get_delete, hin, Ne.symm hin]

theorem put_attrsOnly (name val : Bytes) : AttrsOnly db (db.put i (attr_bytes name) val) :=
  ⟨fun m => by simp, fun m k hk => by rw [Db.get_put, if_neg fun h => hk name h.2.1]⟩

theorem delete_attrsOnly (name : Bytes) : AttrsOnly db (db.delete i (attr_bytes name)) :=
  ⟨fun m => by simp, fun m k hk => by rw [Db.get_delete, if_neg fun h => hk name h.2]⟩

theorem no_bucket (hi : ¬ db.Has i) : unwrap_ok (get_bucket i) db = .Panic := by
  simp [Tx.unwrap_ok, get_bucket, hi]

theorem setattr_db (i : Inode) (key : String) (val : Bytes) :
    (dbfs_setattr i key val s).2.db =
      if s.db.Has i.number then s.db.put i.number (attr_bytes (as_bytes key)) val else s.db := by
  split_ifs with hi
  · have htx : dbfs_setattr i key val s =
        (.Ok (.ok ()), { s with db := s.db.put i.number (attr_key key) val }) := by
      simp [dbfs_setattr, hi]
    rw [htx, attr_key_eq]
  · rw [dbfs_setattr, Fs.write, bind_of_panic (no_bucket hi)]

/-- What is not there is not deleted. -/
theorem removeattr_db (i : Inode) (key : String) :
    (dbfs_removeattr i key s).2.db =
      if (s.db.attrs i.number (as_bytes key)).isSome then
        s.db.delete i.number (attr_bytes (as_bytes key))
      else s.db := by
  rw [Db.attrs, ← attr_key_eq]
  by_cases hi : s.db.Has i.number
  · rcases hv : s.db.get i.number (attr_key key) with _ | v
    · have htx : dbfs_removeattr i key s = (.Ok (.error "not found"), s) := by
        simp [dbfs_removeattr, hi, hv]
      rw [htx]
      rfl
    · have htx : dbfs_removeattr i key s =
          (.Ok (.ok ()), { s with db := s.db.delete i.number (attr_key key) }) := by
        simp [dbfs_removeattr, hi, hv]
      rw [htx]
      rfl
  · rw [Db.get_of_not_has hi, dbfs_removeattr, Fs.write, bind_of_panic (no_bucket hi)]
    rfl

/-- One hook, seen from inode `n`. A hook on an inode without a bucket stops. -/
theorem AttrHook.step (hook : AttrHook) (hn : s.db.Has n) :
    AttrsOnly s.db (hook.after s).db ∧
      (hook.after s).db.attrs n = hook.on n (s.db.attrs n) := by
  cases hook with
  | set i key val =>
    rw [after, setattr_db, on]
    split_ifs with hi hin hin
    · exact ⟨put_attrsOnly _ _, by rw [attrs_put hi, if_pos hin]⟩
    · exact ⟨put_attrsOnly _ _, by rw [attrs_put hi, if_neg hin]⟩
    · exact absurd (hin ▸ hn) hi
    · exact ⟨.refl _, rfl⟩
  | remove i key =>
    rw [after, removeattr_db, on]
    split_ifs with hsome hin hin
    · exact ⟨delete_attrsOnly _, by rw [attrs_delete, if_pos hin]⟩
    · exact ⟨delete_attrsOnly _, by rw [attrs_delete, if_neg hin]⟩
    · subst hin
      have hnone := Option.not_isSome_iff_eq_none.mp hsome
      exact ⟨.refl _, by rw [← hnone, Function.update_eq_self]⟩
    · exact ⟨.refl _, rfl⟩

/-- A row of hooks. -/
def after_hooks (hooks : List AttrHook) (s : Sys) : Sys :=
  hooks.foldl (fun s hook => hook.after s) s

theorem after_hooks_spec (hooks : List AttrHook) (hn : s.db.Has n) :
    AttrsOnly s.db (after_hooks hooks s).db ∧
      (after_hooks hooks s).db.attrs n = hooks.foldl (AttrHook.on n) (s.db.attrs n) := by
  induction hooks generalizing s with
  | nil => exact ⟨.refl _, rfl⟩
  | cons hook hooks ih =>
    obtain ⟨honly, hattrs⟩ := hook.step hn
    obtain ⟨honly', hattrs'⟩ := ih ((honly.has n).mpr hn)
    refine ⟨honly.trans honly', ?_⟩
    rw [List.foldl_cons, ← hattrs]
    exact hattrs'

end hooks

/-! ## What getattr gives -/

theorem getattr_eq {s : Sys} {i : Inode} (hn : s.db.Has i.number) (key : String) (buf : Bytes) :
    dbfs_getattr i key buf s =
      match s.db.attrs i.number (as_bytes key) with
      | none => (.Ok (.error "not found"), s)
      | some v => (.Ok (.ok (v.length, v.take buf.length ++ buf.drop v.length)), s) := by
  rw [Db.attrs, ← attr_key_eq, dbfs_getattr, Fs.read,
    bind_of_ok (ok_unwrap_ok.mpr (get_bucket_ok (u := ()).mpr ⟨hn, rfl⟩)),
    bind_of_ok (get_kv_ok.mpr ⟨hn, rfl, rfl⟩)]
  rcases s.db.get i.number (attr_key key) with _ | v
  · rfl
  · have hcopy : copy_from_slice buf 0 v 0 (min v.length buf.length) =
        some (v.take buf.length ++ buf.drop v.length) := by
      have hle := Nat.min_le_left v.length buf.length
      have hle' := Nat.min_le_right v.length buf.length
      rw [copy_from_slice, if_pos ⟨by omega, by omega⟩, Slices.overlay, List.take_zero,
        List.nil_append, List.drop_zero, List.length_take, Nat.min_eq_left hle, Nat.zero_add]
      rcases Nat.le_total v.length buf.length with h | h
      · rw [Nat.min_eq_left h, List.take_of_length_le h, List.take_length]
      · rw [Nat.min_eq_right h, List.drop_of_length_le h, List.drop_length]
    simp only [hcopy]
    rfl

/-! ## What listattr gives -/

/-- The names of the attributes of inode `n`, in key order. -/
structure AttrNames (db : Db) (n : UInt64) (names : List Bytes) : Prop where
  sorted : names.Pairwise (· < ·)
  mem (name : Bytes) : name ∈ names ↔ (db.attrs n name).isSome = true

/-- The name that the walk takes out of a binding. -/
def entry_name (kv : Bytes × Bytes) : Option Bytes :=
  if starts_with kv.1 "attr:" then after_colon kv.1 else none

theorem entry_name_eq_some {kv : Bytes × Bytes} {name : Bytes} :
    entry_name kv = some name ↔ kv.1 = attr_bytes name := by
  unfold entry_name
  split_ifs with h
  · obtain ⟨rest, hrest⟩ := List.isPrefixOf_iff_prefix.mp h
    have hkey : kv.1 = attr_bytes rest := hrest.symm
    rw [hkey, after_colon_attr, Option.some_inj, attr_bytes_inj]
  · refine iff_of_false (by simp) fun e => h ?_
    rw [e, starts_with, attr_bytes, List.isPrefixOf_iff_prefix]
    exact List.prefix_append _ _

/-- The names that the walk meets. -/
theorem attrNames_of_bucket {db : Db} {n : UInt64} {b : Bucket} (hb : db.inodes.find? n = some b) :
    AttrNames db n (b.entries.filterMap entry_name) := by
  refine ⟨?_, fun name => ?_⟩
  · rw [List.pairwise_filterMap]
    refine b.sorted.imp fun {kv kv'} hlt name hname name' hname' => ?_
    rw [entry_name_eq_some] at hname hname'
    rwa [hname, hname', attr_bytes_lt] at hlt
  · have hget : db.attrs n name = b.find? (attr_bytes name) := by
      rw [Db.attrs, Db.get, Store.get, hb]
      rfl
    rw [hget, List.mem_filterMap, Option.isSome_iff_exists]
    constructor
    · rintro ⟨⟨k, v⟩, hmem, hname⟩
      cases entry_name_eq_some.mp hname
      exact ⟨v, OrdMap.mem_entries.mp hmem⟩
    · rintro ⟨v, hv⟩
      exact ⟨(_, v), OrdMap.mem_entries.mpr hv, entry_name_eq_some.mpr rfl⟩

/-- A name is copied as listxattr copies it, and always counted. -/
theorem list_name_eq (st : ListState) (key : Bytes) :
    list_name st key = some ⟨(copy_name (st.len, st.buf) key).1,
      st.total_attr_buf + (key.length + 1), (copy_name (st.len, st.buf) key).2⟩ := by
  unfold list_name copy_name
  by_cases hfits : st.len + (key.length + 1) ≤ st.buf.length
  · have hlen : (Slices.overlay st.buf st.len key).length = st.buf.length := by
      rw [Slices.length_overlay (by omega)]
      omega
    have hname : copy_from_slice st.buf st.len key 0 key.length =
        some (Slices.overlay st.buf st.len key) := by
      rw [copy_from_slice, if_pos ⟨by omega, by omega⟩, List.drop_zero, List.take_length]
    have hzero : copy_from_slice (Slices.overlay st.buf st.len key) (st.len + key.length) [0] 0 1 =
        some (Slices.overlay (Slices.overlay st.buf st.len key) (st.len + key.length) [0]) := by
      rw [copy_from_slice, if_pos ⟨by omega, by simp⟩]
      rfl
    rw [if_neg (by omega), hname, Option.bind_eq_bind, Option.bind_some, hzero]
    simp only [if_pos hfits]
    rfl
  · rw [if_pos (by omega)]
    simp only [if_neg hfits]

theorem list_names_eq (names : List Bytes) (st : ListState) :
    names.foldlM list_name st = some ⟨(names.foldl copy_name (st.len, st.buf)).1,
      st.total_attr_buf + listing_size names, (names.foldl copy_name (st.len, st.buf)).2⟩ := by
  induction names generalizing st with
  | nil => rfl
  | cons name names ih =>
    rw [List.foldlM_cons, list_name_eq]
    refine (ih _).trans ?_
    simp only [listing_size, List.map_cons, List.sum_cons, List.foldl_cons, Nat.add_assoc]

/-- The other bindings are passed over. -/
theorem list_entries_eq (entries : List (Bytes × Bytes)) (st : ListState) :
    entries.foldlM list_entry st = (entries.filterMap entry_name).foldlM list_name st := by
  induction entries generalizing st with
  | nil => rfl
  | cons kv entries ih =>
    have hkv : list_entry st kv = (entry_name kv).elim (some st) (list_name st) := by
      unfold list_entry
      rcases hname : entry_name kv with _ | name
      · rw [if_neg fun h => ?_]
        · rfl
        · obtain ⟨rest, hrest⟩ := List.isPrefixOf_iff_prefix.mp h
          rw [entry_name_eq_some.mpr hrest.symm] at hname
          cases hname
      · have hkey := entry_name_eq_some.mp hname
        have hstarts : starts_with kv.1 "attr:" = true := by
          rw [hkey, starts_with, List.isPrefixOf_iff_prefix]
          exact List.prefix_append _ _
        rw [if_pos hstarts, hkey, after_colon_attr]
        rfl
    rw [List.foldlM_cons, hkv]
    rcases hname : entry_name kv with _ | name
    · rw [List.filterMap_cons_none hname]
      exact ih st
    · rw [List.filterMap_cons_some hname, List.foldlM_cons]
      simp only [Option.elim_some, ih]

/-- The whole of a call, for every buffer. -/
theorem listattr_eq {s : Sys} {i : Inode} {names : List Bytes} (hn : s.db.Has i.number)
    (hnames : AttrNames s.db i.number names) (buf : Bytes) :
    dbfs_listattr i buf s =
      (.Ok (.ok (listing_size names, Slices.overlay buf 0 (listing (fitting buf.length names)))),
        s) := by
  obtain ⟨b, hb⟩ := Option.isSome_iff_exists.mp hn
  have hfound := attrNames_of_bucket hb
  cases OrdMap.eq_of_pairwise (fun _ _ => lt_asymm) hnames.sorted hfound.sorted fun name =>
    (hnames.mem name).trans (hfound.mem name).symm
  have hwalk := (list_entries_eq b.entries ⟨0, 0, buf⟩).trans (list_names_eq _ _)
  rw [copy_names_eq _ (Nat.zero_le _), Nat.zero_add, Nat.sub_zero] at hwalk
  rw [dbfs_listattr, Fs.read,
    bind_of_ok (ok_unwrap_ok.mpr (get_bucket_ok (u := ()).mpr ⟨hn, rfl⟩)),
    bind_of_ok (Tx.bucket_ok.mpr ⟨hb, rfl⟩), bind_of_ok (unwrap_ok_iff.mpr ⟨hwalk, rfl⟩)]
  simp only [Nat.zero_add]
  rfl

/-! ## The map and its list -/

/-- The two hooks that read give the map `m`: the values of its names, and the names in the order
of their keys. -/
structure GivesAttrs (s : Sys) (i : Inode) (m : Bytes → Option Bytes) : Prop where
  get (key : String) (buf : Bytes) : dbfs_getattr i key buf s =
    match m (as_bytes key) with
    | none => (.Ok (.error "not found"), s)
    | some v => (.Ok (.ok (v.length, v.take buf.length ++ buf.drop v.length)), s)
  list : ∃ names : List Bytes, names.Pairwise (· < ·) ∧
    (∀ name, name ∈ names ↔ (m name).isSome = true) ∧
    ∀ buf, ∃ buf', dbfs_listattr i buf s = (.Ok (.ok (listing_size names, buf')), s) ∧
      buf'.length = buf.length ∧
      (listing_size names ≤ buf.length →
        buf' = listing names ++ buf.drop (listing_size names))

theorem gives_attrs {s : Sys} {i : Inode} (hn : s.db.Has i.number) :
    GivesAttrs s i (s.db.attrs i.number) := by
  obtain ⟨b, hb⟩ := Option.isSome_iff_exists.mp hn
  have hnames := attrNames_of_bucket hb
  refine ⟨getattr_eq hn, _, hnames.sorted, hnames.mem, fun buf => ⟨_, listattr_eq hn hnames buf, ?_,
    fun hroom => ?_⟩⟩
  · have hfits := listing_size_fitting_le (b.entries.filterMap entry_name) buf.length
    rw [Slices.length_overlay (Nat.zero_le _), length_listing]
    omega
  · rw [fitting_of_le hroom, Slices.overlay, List.take_zero, List.nil_append, length_listing,
      Nat.zero_add]

/-- After any row of hooks on any inodes, an inode has the attributes that were last set and not
since removed, the hooks that read give them, and nothing else has changed. -/
theorem attr_hooks_form_map (s : Sys) (hooks : List AttrHook) (i : Inode)
    (hn : s.db.Has i.number) :
    GivesAttrs (after_hooks hooks s) i
        (hooks.foldl (AttrHook.on i.number) (s.db.attrs i.number)) ∧
      AttrsOnly s.db (after_hooks hooks s).db := by
  obtain ⟨honly, hattrs⟩ := after_hooks_spec hooks hn
  have hgives := gives_attrs ((honly.has i.number).mpr hn)
  rw [hattrs] at hgives
  exact ⟨hgives, honly⟩

section sample

attribute [local instance] sli512_features

/-- A file gets the attributes `a:b` and `c`, and loses `c`. -/
def noted : List AttrHook :=
  [.set ⟨2, 0, 1⟩ "a:b" [1, 2], .set ⟨2, 0, 1⟩ "c" [3], .remove ⟨2, 0, 1⟩ "c"]

theorem noted_file_attrs :
    dbfs_getattr ⟨2, 0, 1⟩ "a:b" [0] (after_hooks noted with_new_file.2) =
        (.Ok (.ok (2, [1])), after_hooks noted with_new_file.2) ∧
      dbfs_getattr ⟨2, 0, 1⟩ "c" [0] (after_hooks noted with_new_file.2) =
        (.Ok (.error "not found"), after_hooks noted with_new_file.2) := by
  have hgives := (attr_hooks_form_map with_new_file.2 noted ⟨2, 0, 1⟩ (by decide +kernel)).1
  have hset : noted.foldl (AttrHook.on 2) (with_new_file.2.db.attrs 2) (as_bytes "a:b") =
      some [1, 2] := by decide +kernel
  have hgone : noted.foldl (AttrHook.on 2) (with_new_file.2.db.attrs 2) (as_bytes "c") = none := by
    decide +kernel
  refine ⟨?_, ?_⟩
  · rw [hgives.get, hset]
    rfl
  · rw [hgives.get, hgone]

end sample

end dbfs2
