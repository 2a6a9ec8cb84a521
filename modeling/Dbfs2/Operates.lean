-- Sets of operations as extend.rs runs them, on handles into one transaction, against what
-- they do to a bucket alone; and what follows for sets on buckets that lie apart, for the
-- file system beside them, and for keys that are added and read again.
import Dbfs2.BucketHandles
import Dbfs2.Db
import Dbfs2.Extend
import Dbfs2.FsType

namespace dbfs2

open common

namespace extend

namespace handles

open BucketTree (InTx)
open BucketTree.InTx

def rename_key (fuel : Nat) (bucket : List Bytes) (old_key new_key : String) :
    InTx Bytes Bytes Unit := do
  let value ← get bucket (as_bytes old_key)
  match value with
  | none => pure ()
  | some value =>
    if old_key = new_key then pure ()
    else do
      let there ← get bucket (as_bytes new_key)
      if there.isSome then pure ()
      else
        match value with
        | .kv v => put bucket (as_bytes new_key) v
        | .bucket _ => rename_bucket fuel bucket old_key new_key

/-- One key of `Read`: `buf` is what has been copied out so far. -/
def read_key (bucket : List Bytes) (buf_size : Nat) (buf : Bytes) (key : String) :
    InTx Bytes Bytes Bytes := do
  let value ← get_kv bucket (as_bytes key)
  let len := min (buf_size - buf.length) value.length
  pure (buf ++ value.take len)

mutual

def operate (fuel : Nat) : Operate → List Bytes → InTx Bytes Bytes Written
  | .RenameKey old_key new_key, bucket => do
    rename_key fuel bucket old_key new_key
    pure []
  | .AddKey map, bucket => do
    map.forM fun kv => put bucket (as_bytes kv.1) kv.2
    pure []
  | .AddBucket key other, bucket => do
    let there ← has_bucket bucket (as_bytes key)
    if there then pure []
    else do
      let new_bucket ← create_bucket bucket (as_bytes key)
      operate_other fuel other new_bucket
  | .DeleteKey keys, bucket => do
    keys.forM fun key => delete bucket (as_bytes key)
    pure []
  | .Read keys buf_addr buf_size, bucket => do
    let buf ← keys.foldlM (read_key bucket buf_size) []
    pure [(buf_addr, buf)]
  | .StepInto key other, bucket => do
    let new_bucket ← get_bucket bucket (as_bytes key)
    operate_other fuel other new_bucket

def operate_other (fuel : Nat) : Option (List Operate) → List Bytes → InTx Bytes Bytes Written
  | none, _ => pure []
  | some operates, bucket => execute_operate_real fuel operates bucket

def execute_operate_real (fuel : Nat) : List Operate → List Bytes → InTx Bytes Bytes Written
  | [], _ => pure []
  | i :: operates, bucket => do
    let written ← operate fuel i bucket
    let written' ← execute_operate_real fuel operates bucket
    pure (written ++ written')

end

def execute_operate (fuel : Nat) (bucket : String) (operates : OperateSet) :
    InTx Bytes Bytes Written := do
  let bucket ← (bucket.splitOn ":").foldlM (fun bucket key => get_bucket bucket (as_bytes key)) []
  execute_operate_real fuel operates bucket

end handles

def extend_create_global_bucket (key : String) (db : Tree) : Except String Unit × Tree :=
  match db.create_bucket (as_bytes key) with
  | none => (.error "create bucket failed", db)
  | some db => (.ok (), db)

/-- The bucket that the parts of a path name, one inside the other. -/
def path_of (path : List String) : List Bytes := path.map as_bytes

/-- The function of the caller gets a handle on the bucket that all parts but the last name, and
may do anything inside it. -/
def execute {R : Type} (first : String) (rest : List String)
    (func : String → Tree → Bytes → Option (R × Tree × Bytes)) (buf : Bytes) (db : Tree) :
    Option (R × Tree × Bytes) := do
  let path := path_of (first :: rest.dropLast)
  let bucket ← db.at_path path
  let (res, bucket, buf) ← func (rest.getLastD first) bucket buf
  some (res, db.place path bucket, buf)

/-- What a program outside can ask for. -/
inductive UserCall (R : Type) where
  | create (key : String)
  | operate (key : String) (path : List String) (operates : OperateSet)
  | execute (key : String) (path : List String)
      (func : String → Tree → Bytes → Option (R × Tree × Bytes)) (buf : Bytes)

namespace UserCall

variable {R : Type}

/-- The bucket of the database that a call starts from. -/
def key : UserCall R → String
  | create key => key
  | operate key _ _ => key
  | execute key _ _ _ => key

/-- The database after the call. A call that panics drops its transaction. -/
def run (db : Tree) : UserCall R → Tree
  | create key => (extend_create_global_bucket key db).2
  | operate key path operates =>
    match execute_at (key :: path) operates db with
    | some (db', _) => db'
    | none => db
  | execute key path func buf =>
    match extend.execute key path func buf db with
    | some (_, db', _) => db'
    | none => db

end UserCall

end extend

open extend BucketTree InTx

/-! ## Handles and trees -/

section does

variable {p : List Bytes}

theorem rename_key_does (old_key new_key : String) :
    Does p (fun fuel => handles.rename_key fuel p old_key new_key) fun b =>
      (rename_key old_key new_key b).map ((), ·) := by
  intro tx b hb
  have hget : ∀ k, InTx.get p k tx = some (b.get k, tx) := fun k => by rw [InTx.get, hb]; rfl
  have hskip : (pure () : InTx Bytes Bytes Unit) tx = some ((), tx.place p b) := by
    rw [place_at_path hb]
    rfl
  simp only [handles.rename_key, bind_of_some (hget _)]
  rcases hold : b.get (as_bytes old_key) with _ | value
  · rw [rename_key_skips (.inl hold)]
    exact .of_forall fun _ => hskip
  by_cases hne : old_key = new_key
  · rw [rename_key_skips (.inr (.inl hne))]
    simp only [if_pos hne]
    exact .of_forall fun _ => hskip
  simp only [if_neg hne, bind_of_some (hget _)]
  rcases hnew : b.get (as_bytes new_key) with _ | there
  · cases value with
    | kv v =>
      have hput := modify_eq hb (·.put (as_bytes new_key) v)
      rw [put_of_free hnew] at hput
      rw [rename_key_value hold hne hnew]
      exact .of_forall fun _ => hput
    | bucket es =>
      obtain ⟨c, hc, _⟩ := exists_get_bucket hold
      filter_upwards [Filter.eventually_ge_atTop (c.size + 1)] with fuel hfuel
      rw [Option.map_map]
      exact rename_bucket_in_tx hb hc hne hnew hfuel
  · rw [rename_key_skips (.inr (.inr (by rw [hnew]; rfl)))]
    exact .of_forall fun _ => hskip

theorem read_keys_does (keys : List String) (buf_size : Nat) :
    Does p (fun _ => keys.foldlM (handles.read_key p buf_size) []) fun b =>
      (read_keys keys buf_size b).map (·, b) := by
  refine Does.gather (fun buf key => ?_) []
  refine ((Does.get_kv (as_bytes key)).bind fun value => Does.pure _).congr fun b => ?_
  rcases b.get_kv (as_bytes key) with _ | value <;> rfl

mutual

theorem operate_does : ∀ (i : Operate) (p : List Bytes),
    Does p (fun fuel => handles.operate fuel i p) fun b => (operate i b).map Prod.swap
  | .RenameKey old_key new_key, p => by
    refine ((rename_key_does old_key new_key).bind fun _ => Does.pure []).congr fun b => ?_
    rw [operate]
    rcases rename_key old_key new_key b with _ | c <;> rfl
  | .AddKey map, p => by
    refine ((Does.forM fun kv => Does.modify _).bind fun _ => Does.pure []).congr fun b => ?_
    rw [operate, add_key]
    rcases List.foldlM _ b map with _ | c <;> rfl
  | .AddBucket key other, p => by
    have hmade := (operate_other_does other (p ++ [as_bytes key])).make
    refine ((Does.has_bucket (as_bytes key)).bind (Does.ite (Does.pure []) hmade)).congr
      fun b => ?_
    rw [operate]
    simp only [Option.bind_some]
    split_ifs
    · rfl
    · rcases hmake : b.create_bucket (as_bytes key) with _ | c
      · rfl
      · change _ = ((c.get_bucket (as_bytes key)).bind _).map _
        rw [get_bucket_of_create hmake]
        change _ = ((operate_other other ∅).bind _).map _
        simp only [Option.bind_some]
        rcases operate_other other ∅ with _ | r <;> rfl
  | .DeleteKey keys, p => by
    refine ((Does.forM fun key => Does.modify _).bind fun _ => Does.pure []).congr fun b => ?_
    rw [operate, delete_key]
    rcases List.foldlM _ b keys with _ | c <;> rfl
  | .Read keys buf_addr buf_size, p => by
    refine ((read_keys_does keys buf_size).bind fun buf => Does.pure [(buf_addr, buf)]).congr
      fun b => ?_
    rw [operate]
    rcases read_keys keys buf_size b with _ | buf <;> rfl
  | .StepInto key other, p => by
    refine (operate_other_does other (p ++ [as_bytes key])).step.congr fun b => ?_
    rw [operate]
    rcases b.get_bucket (as_bytes key) with _ | c
    · rfl
    · change _ = ((operate_other other c).bind _).map _
      simp only [Option.bind_some]
      rcases operate_other other c with _ | r <;> rfl

theorem operate_other_does : ∀ (other : Option (List Operate)) (p : List Bytes),
    Does p (fun fuel => handles.operate_other fuel other p) fun b =>
      (operate_other other b).map Prod.swap
  | none, _ => Does.pure []
  | some operates, p => execute_operate_real_does operates p

theorem execute_operate_real_does : ∀ (operates : List Operate) (p : List Bytes),
    Does p (fun fuel => handles.execute_operate_real fuel operates p) fun b =>
      (execute_operate_real operates b).map Prod.swap
  | [], _ => Does.pure []
  | i :: operates, p => by
    refine ((operate_does i p).bind fun written => (execute_operate_real_does operates p).bind
      fun written' => Does.pure (written ++ written')).congr fun b => ?_
    rw [execute_operate_real]
    rcases operate i b with _ | ⟨c, written⟩
    · rfl
    · change _ = ((execute_operate_real operates c).bind _).map _
      simp only [Option.map_some, Prod.swap_prod_mk, Option.bind_some]
      rcases execute_operate_real operates c with _ | r <;> rfl

end

end does

/-- A set at the end of a path changes the bucket there. -/
theorem execute_at_eq (path : List String) (operates : OperateSet) (b : Tree) :
    execute_at path operates b = (b.at_path (path_of path)).bind fun c =>
      (execute_operate_real operates c).map fun r => (b.place (path_of path) r.1, r.2) := by
  induction path generalizing b with
  | nil =>
    simp only [execute_at, path_of, List.map_nil, at_path_nil, Option.bind_some, place]
    rcases execute_operate_real operates b with _ | r <;> rfl
  | cons key path ih =>
    change ((b.get_bucket (as_bytes key)).bind fun c => (execute_at path operates c).bind _) =
      (((b.get_bucket (as_bytes key)).bind fun c => c.at_path (path_of path))).bind _
    rcases hk : b.get_bucket (as_bytes key) with _ | c
    · rfl
    · simp only [Option.bind_some, ih]
      rcases c.at_path (path_of path) with _ | d
      · rfl
      · simp only [Option.bind_some]
        rcases execute_operate_real operates d with _ | r
        · rfl
        · exact congrArg (fun e => some (e, r.2)) (place_cons hk (path_of path) r.1).symm

/-- Handles go down a path as far as there are buckets. -/
theorem get_bucket_down (path : List String) {p : List Bytes} {tx b : Tree}
    (hb : tx.at_path p = some b) :
    (path.foldlM (fun bucket key => InTx.get_bucket bucket (as_bytes key)) p) tx =
      (b.at_path (path_of path)).map fun _ => (p ++ path_of path, tx) := by
  induction path generalizing p b with
  | nil =>
    simp only [path_of, List.map_nil, at_path_nil, List.append_nil, Option.map_some]
    rfl
  | cons key path ih =>
    rw [List.foldlM_cons]
    have hat := at_path_concat hb (as_bytes key)
    change _ = (((b.get_bucket (as_bytes key)).bind fun c => c.at_path (path_of path))).map _
    rcases hk : b.get_bucket (as_bytes key) with _ | c
    · rw [bind_eq, InTx.get_bucket, hat, hk]
      rfl
    · rw [hk] at hat
      rw [bind_of_some (get_bucket_eq hat), ih hat, List.append_assoc]
      rfl

/-- A set of operations that runs through handles does what it does to the trees alone, and stops
where it stops there. -/
theorem execute_operate_in_tx (bucket : String) (operates : OperateSet) (tx : Tree) :
    ∃ fuel, ∀ more, fuel ≤ more → handles.execute_operate more bucket operates tx =
      (execute_operate bucket operates tx).map Prod.swap := by
  have hdown := get_bucket_down (bucket.splitOn ":") (at_path_nil tx)
  rw [List.nil_append] at hdown
  simp only [execute_operate, execute_at_eq]
  rcases hat : tx.at_path (path_of (bucket.splitOn ":")) with _ | b
  · refine ⟨0, fun more _ => ?_⟩
    rw [handles.execute_operate, bind_eq, hdown, hat]
    rfl
  · have hrun := execute_operate_real_does operates _ tx b hat
    obtain ⟨fuel, hfuel⟩ := Filter.eventually_atTop.mp hrun
    refine ⟨fuel, fun more hmore => ?_⟩
    rw [hat] at hdown
    rw [handles.execute_operate, bind_of_some hdown]
    refine (hfuel more hmore).trans ?_
    simp only [Option.bind_some]
    rcases execute_operate_real operates b with _ | r <;> rfl

/-! ## Sets on buckets that lie apart -/

/-- Sets on buckets of which neither holds the other may run in either order: the same tree is
left, the same bytes are read, and where one stops the program the other order stops it too. -/
theorem apart_sets_commute {p q : List String} (h : Apart (path_of p) (path_of q))
    (xs ys : OperateSet) (db : Tree) :
    ((execute_at p xs db).bind fun r =>
        (execute_at q ys r.1).map fun r' => (r'.1, r.2, r'.2)) =
      (execute_at q ys db).bind fun r' =>
        (execute_at p xs r'.1).map fun r => (r.1, r.2, r'.2) := by
  -- the one set finds its bucket as it was before the other
  have hp : ∀ d, (db.place (path_of q) d).at_path (path_of p) = db.at_path (path_of p) := fun d =>
    at_path_place_apart h.symm d
  have hq : ∀ c, (db.place (path_of p) c).at_path (path_of q) = db.at_path (path_of q) := fun c =>
    at_path_place_apart h c
  simp only [execute_at_eq]
  rcases hbp : db.at_path (path_of p) with _ | b
  · rcases db.at_path (path_of q) with _ | d
    · rfl
    · rcases hys : execute_operate_real ys d with _ | r'
      · simp [hys]
      · simp [hys, hp, hbp]
  rcases hxs : execute_operate_real xs b with _ | r
  · rcases db.at_path (path_of q) with _ | d
    · simp [hxs]
    · rcases hys : execute_operate_real ys d with _ | r'
      · simp [hxs, hys]
      · simp [hxs, hys, hp, hbp]
  rcases hbq : db.at_path (path_of q) with _ | d
  · simp [hxs, hq, hbq]
  rcases hys : execute_operate_real ys d with _ | r'
  · simp [hxs, hys, hq, hbq]
  · simp [hxs, hys, hp, hq, hbp, hbq, place_comm h]

def two_buckets : Tree :=
  ((∅ : Tree).set_bucket (as_bytes "a") ∅).set_bucket (as_bytes "b") ∅

theorem two_sets_commute :
    ((execute_at ["a"] [.AddKey [("k", [1])]] two_buckets).bind fun r =>
        (execute_at ["b"] [.AddKey [("k", [2])]] r.1).map fun r' => (r'.1, r.2, r'.2)) =
      ((execute_at ["b"] [.AddKey [("k", [2])]] two_buckets).bind fun r' =>
        (execute_at ["a"] [.AddKey [("k", [1])]] r'.1).map fun r => (r.1, r.2, r'.2)) ∧
    ((execute_at ["a"] [.AddKey [("k", [1])]] two_buckets).bind fun r =>
        execute_at ["b"] [.AddKey [("k", [2])]] r.1).isSome = true :=
  ⟨apart_sets_commute ⟨by decide, by decide⟩ _ _ _, by decide +kernel⟩

/-! ## The file system beside them -/

/-- The buckets of the file system: the super block, and one for each inode. -/
def FsName (name : Bytes) : Prop :=
  name = as_bytes "super_blk" ∨ ∃ n : UInt64, name = be_usize n.toNat

/-- The database of the file system is a part of the tree of buckets. -/
structure HoldsFs (tree : Tree) (db : Db) : Prop where
  super_blk : db.super_blk.isSome = (tree.get_bucket (as_bytes "super_blk")).isSome
  sb (f : Field) : db.sb f = (tree.get_bucket (as_bytes "super_blk")).bind (·.get_kv f.key)
  has (n : UInt64) : db.Has n ↔ (tree.get_bucket (be_usize n.toNat)).isSome = true
  get (n : UInt64) (k : Bytes) :
    db.get n k = (tree.get_bucket (be_usize n.toNat)).bind (·.get_kv k)

/-- The super block and the inodes as buckets, and no other bucket. -/
def fs_tree (super_blk : Bucket) : List (UInt64 × Bucket) → Tree
  | [] => (∅ : Tree).set_bucket (as_bytes "super_blk") (.leaf super_blk)
  | e :: inodes => (fs_tree super_blk inodes).set_bucket (be_usize e.1.toNat) (.leaf e.2)

def tree_of (db : Db) : Tree := fs_tree (db.super_blk.getD ∅) db.inodes.entries

theorem inode_name_ne (n : UInt64) : as_bytes "super_blk" ≠ be_usize n.toNat := by
  intro h
  have hlen := congrArg List.length h
  rw [be_usize, BigEndian.length_encode] at hlen
  cases hlen

theorem inode_name_inj {n m : UInt64} (h : be_usize n.toNat = be_usize m.toNat) : n = m := by
  have hval := congrArg common.usize h
  rw [usize_be n.toNat_lt, usize_be m.toNat_lt] at hval
  exact UInt64.toNat_inj.mp (Option.some.inj hval)

theorem fs_tree_super_blk (super_blk : Bucket) (inodes : List (UInt64 × Bucket)) :
    (fs_tree super_blk inodes).get_bucket (as_bytes "super_blk") = some (.leaf super_blk) := by
  induction inodes with
  | nil => exact get_bucket_set ..
  | cons e inodes ih => rw [fs_tree, get_bucket_set_ne (inode_name_ne e.1), ih]

theorem fs_tree_inode (super_blk : Bucket) (inodes : List (UInt64 × Bucket)) (n : UInt64) :
    (fs_tree super_blk inodes).get_bucket (be_usize n.toNat) =
      (OrdMap.lookup n inodes).map .leaf := by
  induction inodes with
  | nil =>
    rw [fs_tree, get_bucket_set_ne (inode_name_ne n).symm]
    rfl
  | cons e inodes ih =>
    rw [fs_tree, OrdMap.lookup]
    split_ifs with hn
    · rw [hn, get_bucket_set]
      rfl
    · rw [get_bucket_set_ne fun h => hn (inode_name_inj h), ih]

/-- Every mounted file system is a part of some tree. -/
theorem tree_of_holds {db : Db} (h : db.super_blk.isSome) : HoldsFs (tree_of db) db := by
  obtain ⟨super_blk, hsb⟩ := Option.isSome_iff_exists.mp h
  have hinode : ∀ n : UInt64, (tree_of db).get_bucket (be_usize n.toNat) =
      (db.inodes.find? n).map .leaf := fs_tree_inode _ _
  have hsuper : (tree_of db).get_bucket (as_bytes "super_blk") = some (.leaf super_blk) := by
    rw [tree_of, fs_tree_super_blk, hsb, Option.getD_some]
  refine ⟨?_, fun f => ?_, fun n => ?_, fun n k => ?_⟩
  · rw [hsuper, hsb]
    rfl
  · rw [hsuper, Db.sb, hsb, Option.bind_some, Option.bind_some, BucketTree.get_kv_leaf]
  · rw [hinode, Option.isSome_map]
    rfl
  · rw [hinode, Db.get, Store.get]
    rcases db.inodes.find? n with _ | b
    · rfl
    · exact (BucketTree.get_kv_leaf b k).symm

/-- Any name of eight bytes is the name of an inode. -/
theorem fsName_iff (key : String) :
    FsName (as_bytes key) ↔ key = "super_blk" ∨ key.utf8ByteSize = 8 := by
  rw [← length_as_bytes]
  constructor
  · rintro (h | ⟨n, h⟩)
    · exact .inl (as_bytes_injective h)
    · rw [h]
      exact .inr (BigEndian.length_encode ..)
  · rintro (rfl | h)
    · exact .inl rfl
    · have hlt := BigEndian.decode_lt (as_bytes key)
      rw [h] at hlt
      refine .inr ⟨UInt64.ofNat (BigEndian.decode (as_bytes key)), ?_⟩
      rw [UInt64.toNat_ofNat', Nat.mod_eq_of_lt (by simpa using hlt), be_usize, ← h,
        BigEndian.encode_decode]

section user

variable {R : Type} {tree tree' : Tree} {db : Db}

theorem HoldsFs.of_buckets (h : HoldsFs tree db)
    (hsame : ∀ name, FsName name → tree'.get_bucket name = tree.get_bucket name) :
    HoldsFs tree' db where
  super_blk := by rw [hsame _ (.inl rfl), h.super_blk]
  sb f := by rw [hsame _ (.inl rfl), h.sb]
  has n := by rw [hsame _ (.inr ⟨n, rfl⟩), h.has]
  get n k := by rw [hsame _ (.inr ⟨n, rfl⟩), h.get]

theorem execute_place {first : String} {rest : List String}
    {func : String → Tree → Bytes → Option (R × Tree × Bytes)} {buf buf' : Bytes} {res : R}
    (h : extend.execute first rest func buf tree = some (res, tree', buf')) :
    ∃ c, tree' = tree.place (path_of (first :: rest.dropLast)) c := by
  obtain ⟨b, _, h⟩ := Option.bind_eq_some_iff.mp h
  obtain ⟨⟨_, c, _⟩, _, h⟩ := Option.bind_eq_some_iff.mp h
  cases h
  exact ⟨c, rfl⟩

/-- A call leaves all buckets of the database but its own. -/
theorem UserCall.run_get_bucket (call : UserCall R) (tree : Tree) {name : Bytes}
    (h : name ≠ as_bytes call.key) :
    (call.run tree).get_bucket name = tree.get_bucket name := by
  cases call with
  | create key =>
    simp only [UserCall.run, extend_create_global_bucket]
    rcases hget : tree.get (as_bytes key) with _ | d
    · rw [create_bucket_of_free hget]
      exact get_bucket_set_ne h
    · rw [BucketTree.create_bucket, hget]
  | operate key path operates =>
    simp only [UserCall.run, execute_at_eq]
    rcases tree.at_path (path_of (key :: path)) with _ | c
    · rfl
    · simp only [Option.bind_some]
      rcases execute_operate_real operates c with _ | r
      · rfl
      · exact get_bucket_place_ne h _ _ _
  | execute key path func buf =>
    rw [UserCall.run]
    rcases hrun : extend.execute key path func buf tree with _ | ⟨res, tree', buf'⟩
    · rfl
    · obtain ⟨c, rfl⟩ := execute_place hrun
      exact get_bucket_place_ne h _ _ _

/-- Whatever a program outside runs on buckets of its own, the file system stays as it is. Names
of eight bytes are not its own. -/
theorem user_calls_spare_the_file_system (calls : List (UserCall R))
    (hnames : ∀ call ∈ calls, call.key ≠ "super_blk" ∧ call.key.utf8ByteSize ≠ 8)
    (h : HoldsFs tree db) : HoldsFs (calls.foldl UserCall.run tree) db := by
  induction calls generalizing tree with
  | nil => exact h
  | cons call calls ih =>
    refine ih (fun call' hmem => hnames call' (List.mem_cons_of_mem _ hmem)) ?_
    refine h.of_buckets fun name hname => UserCall.run_get_bucket call tree ?_
    rintro rfl
    obtain ⟨hsb, hlen⟩ := hnames call List.mem_cons_self
    rcases (fsName_iff call.key).mp hname with he | he
    · exact hsb he
    · exact hlen he

end user

section sample

attribute [local instance] sli512_features

/-- A program makes a bucket of its own and puts a key there. -/
def own_bucket : List (UserCall Unit) :=
  [.create "test", .operate "test" [] [.AddKey [("k", [1])]]]

/-- A mounted file system, with its super block and its root. -/
def mounted : Db := (fs_type.new_fs 0 0 .default).db

theorem own_bucket_spares_the_file_system :
    mounted.super_blk.isSome ∧ mounted.Has 1 ∧ HoldsFs (tree_of mounted) mounted ∧
      HoldsFs (own_bucket.foldl UserCall.run (tree_of mounted)) mounted ∧
      (((own_bucket.foldl UserCall.run (tree_of mounted)).get_bucket (as_bytes "test")).bind
        (·.get_kv (as_bytes "k"))) = some [1] := by
  have hsb : mounted.super_blk.isSome := by decide +kernel
  have hfs := tree_of_holds hsb
  refine ⟨hsb, by decide +kernel, hfs,
    user_calls_spare_the_file_system own_bucket (fun call hmem => ?_) hfs, by decide +kernel⟩
  rcases List.mem_cons.mp hmem with rfl | hmem
  · exact ⟨by decide, by decide⟩
  · rw [List.mem_singleton.mp hmem]
    exact ⟨by decide, by decide⟩

end sample

/-! ## Keys that are added and read again -/

theorem take_grows (buf value rest : Bytes) (n : Nat) :
    (buf ++ value.take (min (n - buf.length) value.length)) ++
        rest.take (n - (buf ++ value.take (min (n - buf.length) value.length)).length) =
      buf ++ (value ++ rest).take (n - buf.length) := by
  rw [List.take_append, List.append_assoc, ← List.take_eq_take_min]
  congr 3
  rw [List.length_append, List.length_take]
  omega

/-- `Read` fills its buffer with the values one after the other, as far as it goes. -/
theorem read_keys_eq (keys : List String) (buf_size : Nat) (b : Tree) :
    read_keys keys buf_size b =
      (keys.mapM fun key => b.get_kv (as_bytes key)).map fun vs => vs.flatten.take buf_size := by
  have hfrom : ∀ buf : Bytes, keys.foldlM (fun (buf : Bytes) key =>
      (b.get_kv (as_bytes key)).bind fun value =>
        some (buf ++ value.take (min (buf_size - buf.length) value.length))) buf =
        (keys.mapM fun key => b.get_kv (as_bytes key)).map fun vs =>
          buf ++ vs.flatten.take (buf_size - buf.length) := by
    induction keys with
    | nil => simp
    | cons key keys ih =>
      intro buf
      rw [List.foldlM_cons, List.mapM_cons]
      rcases b.get_kv (as_bytes key) with _ | value
      · rfl
      · refine (ih _).trans ?_
        rcases keys.mapM fun key => b.get_kv (as_bytes key) with _ | vs
        · rfl
        · exact congrArg some (take_grows buf value vs.flatten buf_size)
  exact (hfrom []).trans (by simp)

theorem add_key_get (map : List (String × Bytes)) {b : Tree} (hkeys : (map.map Prod.fst).Nodup)
    (hfree : ∀ kv ∈ map, b.get_bucket (as_bytes kv.1) = none) :
    ∃ b', add_key map b = some b' ∧ (∀ kv ∈ map, b'.get_kv (as_bytes kv.1) = some kv.2) ∧
      ∀ k, (∀ kv ∈ map, k ≠ as_bytes kv.1) → b'.get k = b.get k := by
  induction map generalizing b with
  | nil => exact ⟨b, rfl, by simp, fun _ _ => rfl⟩
  | cons kv map ih =>
    rw [List.map_cons, List.nodup_cons] at hkeys
    have hput : b.put (as_bytes kv.1) kv.2 =
        some (b.bind (as_bytes kv.1) (.kv kv.2) (.kv kv.2)) := by
      unfold BucketTree.put
      split
      · rename_i es hes
        obtain ⟨c, hc, _⟩ := exists_get_bucket hes
        rw [hfree kv List.mem_cons_self] at hc
        cases hc
      · rfl
    have hne : ∀ kv' ∈ map, as_bytes kv'.1 ≠ as_bytes kv.1 := fun kv' hmem e =>
      hkeys.1 (List.mem_map.mpr ⟨kv', hmem, as_bytes_injective e⟩)
    have hfree' : ∀ kv' ∈ map,
        (b.bind (as_bytes kv.1) (.kv kv.2) (.kv kv.2)).get_bucket (as_bytes kv'.1) = none := by
      intro kv' hmem
      rw [get_bucket_bind_ne (hne kv' hmem)]
      exact hfree kv' (List.mem_cons_of_mem _ hmem)
    obtain ⟨b', hadd, hvalues, hothers⟩ := ih hkeys.2 hfree'
    refine ⟨b', ?_, fun kv' hmem => ?_, fun k hk => ?_⟩
    · rw [add_key, List.foldlM_cons, hput]
      exact hadd
    · rcases List.mem_cons.mp hmem with rfl | hmem
      · rw [BucketTree.get_kv, hothers _ fun kv'' h e => hne kv'' h e.symm, get_bind, if_pos rfl]
      · exact hvalues kv' hmem
    · rw [hothers k fun kv' hmem => hk kv' (List.mem_cons_of_mem _ hmem), get_bind,
        if_neg (hk kv List.mem_cons_self)]

theorem mapM_values {f : String → Option Bytes} {map : List (String × Bytes)}
    (h : ∀ kv ∈ map, f kv.1 = some kv.2) :
    (map.map Prod.fst).mapM f = some (map.map Prod.snd) := by
  induction map with
  | nil => rfl
  | cons kv map ih =>
    rw [List.map_cons, List.mapM_cons, h kv List.mem_cons_self,
      ih fun kv' hmem => h kv' (List.mem_cons_of_mem _ hmem)]
    rfl

/-- Keys that are added to a bucket are read from it in the same transaction. -/
theorem added_keys_are_read (map : List (String × Bytes)) (buf_addr buf_size : Nat) {b : Tree}
    (hkeys : (map.map Prod.fst).Nodup)
    (hfree : ∀ kv ∈ map, b.get_bucket (as_bytes kv.1) = none) :
    ∃ b', execute_operate_real [.AddKey map, .Read (map.map Prod.fst) buf_addr buf_size] b =
        some (b', [(buf_addr, (map.map Prod.snd).flatten.take buf_size)]) ∧
      ∀ k, (∀ kv ∈ map, k ≠ as_bytes kv.1) → b'.get k = b.get k := by
  obtain ⟨b', hadd, hvalues, hothers⟩ := add_key_get map hkeys hfree
  have hread : execute_operate_real [.Read (map.map Prod.fst) buf_addr buf_size] b' =
      some (b', [(buf_addr, (map.map Prod.snd).flatten.take buf_size)]) := by
    rw [execute_operate_real, operate, read_keys_eq, mapM_values hvalues]
    rfl
  refine ⟨b', ?_, hothers⟩
  rw [execute_operate_real, operate, hadd]
  change (execute_operate_real _ b').bind _ = _
  rw [hread]
  rfl

theorem two_keys_are_read :
    ∃ b' : Tree,
      execute_operate_real [.AddKey [("a", [1]), ("b", [2, 3])], .Read ["a", "b"] 0 2] ∅ =
        some (b', [(0, [1, 2])]) := by
  obtain ⟨b', hrun, _⟩ := added_keys_are_read [("a", [1]), ("b", [2, 3])] 0 2 (b := ∅) (by decide)
    fun kv _ => rfl
  exact ⟨b', hrun⟩

end dbfs2
