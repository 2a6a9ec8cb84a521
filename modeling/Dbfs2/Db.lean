-- The database under the file system: one bucket per inode and the super block
-- bucket. A call runs in one or more transactions; a transaction that ends in an
-- error or a panic is dropped before its commit and leaves the database alone.
import Dbfs2.Store
import Dbfs2.Keys

namespace dbfs2

open common

/-! ## Slices -/

/-- The cargo features that set the slice size. -/
inductive SliceFeature where
  | sli512
  | sli1k
  | sli4k
  | sli8k
  | sli32k
  deriving DecidableEq, Repr

/-- The feature this build was made with. -/
class Features where
  slice : SliceFeature

/-- The build with the smallest slices, for samples. -/
@[reducible]
def sli512_features : Features := ⟨.sli512⟩

def SLICE_SIZE [Features] : Nat :=
  match Features.slice with
  | .sli512 => 512
  | .sli1k => 1024
  | .sli4k => 4096
  | .sli8k => 8192
  | .sli32k => 8192 * 2 * 2

theorem SLICE_SIZE_pos [Features] : 0 < SLICE_SIZE := by
  unfold SLICE_SIZE
  split <;> omega

theorem SLICE_SIZE_le [Features] : SLICE_SIZE ≤ 32768 := by
  unfold SLICE_SIZE
  split <;> omega

/-! ## The database -/

/-- An inode bucket or the super block bucket. -/
abbrev Bucket := OrdMap Bytes Bytes

/-- The root of the database. An inode bucket is named by the eight bytes of its number,
so it is held here under the number itself. -/
structure Db where
  super_blk : Option Bucket
  inodes : Store UInt64 Bytes Bytes
  deriving DecidableEq

namespace Db

/-- Inode `n` has a bucket. -/
def Has (db : Db) (n : UInt64) : Prop := Store.Has db.inodes n

instance (db : Db) (n : UInt64) : Decidable (db.Has n) :=
  inferInstanceAs (Decidable (Store.Has _ _))

/-- The value of a key of inode `n`. -/
def get (db : Db) (n : UInt64) (k : Bytes) : Option Bytes := Store.get db.inodes n k

def u16 (db : Db) (n : UInt64) (f : Field) : Option UInt16 := (db.get n f.key).bind common.u16

def u32 (db : Db) (n : UInt64) (f : Field) : Option UInt32 := (db.get n f.key).bind common.u32

def usize (db : Db) (n : UInt64) (f : Field) : Option Nat := (db.get n f.key).bind common.usize

/-- The number that stands under a key. -/
def ref (db : Db) (n : UInt64) (k : Bytes) : Option UInt64 := (db.get n k).bind parse_ino

/-- The number that the entry `name` of inode `n` holds. -/
def entry (db : Db) (n : UInt64) (name : String) : Option UInt64 :=
  db.ref n (generate_data_key name)

/-- The value of a key of the super block. -/
def sb (db : Db) (f : Field) : Option Bytes := db.super_blk.bind (·.find? f.key)

def put (db : Db) (n : UInt64) (k v : Bytes) : Db :=
  { db with inodes := Store.put db.inodes n k v }

def delete (db : Db) (n : UInt64) (k : Bytes) : Db :=
  { db with inodes := Store.delete db.inodes n k }

def create (db : Db) (n : UInt64) : Db := { db with inodes := Store.create db.inodes n }

def drop (db : Db) (n : UInt64) : Db := { db with inodes := Store.drop db.inodes n }

def put_if (db : Db) (c : Bool) (n : UInt64) (k v : Bytes) : Db := if c then db.put n k v else db

/-- Several pairs put into one bucket, in order. -/
def puts (db : Db) (n : UInt64) (kvs : List (Bytes × Bytes)) : Db :=
  kvs.foldl (fun db kv => db.put n kv.1 kv.2) db

def sb_put (db : Db) (f : Field) (v : Bytes) : Db :=
  { db with super_blk := db.super_blk.map (·.insert f.key v) }

variable (db : Db) (n m : UInt64) (k k' v : Bytes) (f g : Field)

@[simp] theorem has_put : (db.put n k v).Has m ↔ db.Has m := Store.has_put _ _ _ _ _

@[simp] theorem has_delete : (db.delete n k).Has m ↔ db.Has m := Store.has_delete _ _ _ _

@[simp] theorem has_create : (db.create n).Has m ↔ m = n ∨ db.Has m := Store.has_create _ _ _

@[simp] theorem has_drop : (db.drop n).Has m ↔ m ≠ n ∧ db.Has m := Store.has_drop _ _ _

@[simp]
theorem has_put_if (c : Bool) : (db.put_if c n k v).Has m ↔ db.Has m := by
  rcases c with _ | _
  · exact Iff.rfl
  · exact has_put _ _ _ _ _

@[simp] theorem has_sb_put : (db.sb_put f v).Has m ↔ db.Has m := Iff.rfl

@[simp]
theorem get_put :
    (db.put n k v).get m k' = if m = n ∧ k' = k ∧ db.Has n then some v else db.get m k' := by
  refine (Store.get_put db.inodes n m k k' v).trans ?_
  congr

@[simp]
theorem get_put_if (c : Bool) : (db.put_if c n k v).get m k' =
    if c = true ∧ m = n ∧ k' = k ∧ db.Has n then some v else db.get m k' := by
  rcases c with _ | _
  · simp [put_if]
  · simp [put_if, get_put]

@[simp]
theorem get_delete :
    (db.delete n k).get m k' = if m = n ∧ k' = k then none else db.get m k' := by
  refine (Store.get_delete db.inodes n m k k').trans ?_
  congr

@[simp]
theorem get_create : (db.create n).get m k = if m = n then none else db.get m k :=
  Store.get_create _ _ _ _

@[simp]
theorem get_drop : (db.drop n).get m k = if m = n then none else db.get m k :=
  Store.get_drop _ _ _ _

@[simp] theorem get_sb_put : (db.sb_put f v).get m k = db.get m k := rfl

@[simp] theorem sb_put_eq : (db.put n k v).sb f = db.sb f := rfl

@[simp] theorem sb_delete : (db.delete n k).sb f = db.sb f := rfl

@[simp] theorem sb_create : (db.create n).sb f = db.sb f := rfl

@[simp] theorem sb_drop : (db.drop n).sb f = db.sb f := rfl

theorem sb_sb_put :
    (db.sb_put f v).sb g = if g = f ∧ db.super_blk.isSome then some v else db.sb g := by
  unfold sb sb_put
  rcases db.super_blk with _ | b
  · simp
  · simp [OrdMap.find?_insert]

@[simp]
theorem u16_put : (db.put n k v).u16 m f =
    if m = n ∧ f.key = k ∧ db.Has n then common.u16 v else db.u16 m f := by
  simp only [u16, get_put]
  split_ifs <;> rfl

@[simp]
theorem u32_put : (db.put n k v).u32 m f =
    if m = n ∧ f.key = k ∧ db.Has n then common.u32 v else db.u32 m f := by
  simp only [u32, get_put]
  split_ifs <;> rfl

@[simp]
theorem usize_put : (db.put n k v).usize m f =
    if m = n ∧ f.key = k ∧ db.Has n then common.usize v else db.usize m f := by
  simp only [usize, get_put]
  split_ifs <;> rfl

@[simp]
theorem u16_put_if (c : Bool) : (db.put_if c n k v).u16 m f =
    if c = true ∧ m = n ∧ f.key = k ∧ db.Has n then common.u16 v else db.u16 m f := by
  simp only [u16, get_put_if]
  split_ifs <;> rfl

@[simp]
theorem u16_delete : (db.delete n k).u16 m f = if m = n ∧ f.key = k then none else db.u16 m f := by
  simp only [u16, get_delete]
  split_ifs <;> rfl

@[simp]
theorem u32_put_if (c : Bool) : (db.put_if c n k v).u32 m f =
    if c = true ∧ m = n ∧ f.key = k ∧ db.Has n then common.u32 v else db.u32 m f := by
  simp only [u32, get_put_if]
  split_ifs <;> rfl

@[simp]
theorem u32_delete : (db.delete n k).u32 m f = if m = n ∧ f.key = k then none else db.u32 m f := by
  simp only [u32, get_delete]
  split_ifs <;> rfl

@[simp]
theorem usize_put_if (c : Bool) : (db.put_if c n k v).usize m f =
    if c = true ∧ m = n ∧ f.key = k ∧ db.Has n then common.usize v else db.usize m f := by
  simp only [usize, get_put_if]
  split_ifs <;> rfl

@[simp]
theorem usize_delete :
    (db.delete n k).usize m f = if m = n ∧ f.key = k then none else db.usize m f := by
  simp only [usize, get_delete]
  split_ifs <;> rfl

@[simp]
theorem u16_drop : (db.drop n).u16 m f = if m = n then none else db.u16 m f := by
  simp only [u16, get_drop]
  split_ifs <;> rfl

@[simp]
theorem u32_drop : (db.drop n).u32 m f = if m = n then none else db.u32 m f := by
  simp only [u32, get_drop]
  split_ifs <;> rfl

@[simp]
theorem usize_drop : (db.drop n).usize m f = if m = n then none else db.usize m f := by
  simp only [usize, get_drop]
  split_ifs <;> rfl

@[simp] theorem puts_nil : db.puts n [] = db := rfl

@[simp]
theorem puts_cons (kvs : List (Bytes × Bytes)) :
    db.puts n ((k, v) :: kvs) = (db.put n k v).puts n kvs := rfl

@[simp]
theorem has_puts (kvs : List (Bytes × Bytes)) : (db.puts n kvs).Has m ↔ db.Has m := by
  induction kvs generalizing db with
  | nil => exact Iff.rfl
  | cons kv kvs ih => exact (ih _).trans (has_put _ _ _ _ _)

variable {m n} in
theorem get_puts_of_name_ne (h : m ≠ n) (kvs : List (Bytes × Bytes)) :
    (db.puts n kvs).get m k = db.get m k := by
  induction kvs generalizing db with
  | nil => rfl
  | cons kv kvs ih => exact (ih _).trans (by simp [h])

variable {k} in
/-- A key that none of the pairs has keeps its value. -/
theorem get_puts_of_key_ne {kvs : List (Bytes × Bytes)} (h : ∀ kv ∈ kvs, k ≠ kv.1) :
    (db.puts n kvs).get m k = db.get m k := by
  induction kvs generalizing db with
  | nil => rfl
  | cons kv kvs ih =>
    have hkv := h kv List.mem_cons_self
    exact (ih _ fun x hx => h x (List.mem_cons_of_mem _ hx)).trans (by simp [hkv])

variable {db n k v}

theorem has_of_get (h : db.get n k = some v) : db.Has n := Store.has_of_get h

theorem get_of_not_has (h : ¬ db.Has n) (k : Bytes) : db.get n k = none :=
  Store.get_of_not_has h k

theorem has_of_u16 {f : Field} {x : UInt16} (h : db.u16 n f = some x) : db.Has n := by
  obtain ⟨w, hw, _⟩ := Option.bind_eq_some_iff.mp h
  exact has_of_get hw

theorem has_of_u32 {f : Field} {x : UInt32} (h : db.u32 n f = some x) : db.Has n := by
  obtain ⟨w, hw, _⟩ := Option.bind_eq_some_iff.mp h
  exact has_of_get hw

theorem has_of_usize {f : Field} {x : Nat} (h : db.usize n f = some x) : db.Has n := by
  obtain ⟨w, hw, _⟩ := Option.bind_eq_some_iff.mp h
  exact has_of_get hw

theorem lt_of_usize {f : Field} {x : Nat} (h : db.usize n f = some x) : x < 2 ^ 64 := by
  obtain ⟨w, _, hw⟩ := Option.bind_eq_some_iff.mp h
  exact usize_lt hw

theorem has_of_entry {name : String} {i : UInt64} (h : db.entry n name = some i) : db.Has n := by
  obtain ⟨w, hw, _⟩ := Option.bind_eq_some_iff.mp h
  exact has_of_get hw

end Db

/-! ## Transactions -/

/-- A transaction: it reads and changes the database, and may end in an error or a panic. -/
def Tx (α : Type) := Db → DbfsResult (α × Db)

namespace Tx

variable {α β : Type}

instance : Monad Tx where
  pure a := fun db => .Ok (a, db)
  bind x f := fun db => (x db).bind fun p => f p.1 p.2

def fail (e : DbfsError) : Tx α := fun _ => .Err e

/-- `Option::unwrap`, and the decoders that unwrap. -/
def unwrap (o : Option α) : Tx α := fun db => (DbfsResult.unwrap o).bind fun a => .Ok (a, db)

/-- `if !c { return Err(e) }`. -/
def ensure (c : Bool) (e : DbfsError) : Tx Unit := if c then pure () else fail e

/-- `assert!`. -/
def assert (c : Bool) : Tx Unit := unwrap (if c then some () else none)

/-- `Result::unwrap` of a step that may fail. -/
def unwrap_ok (x : Tx α) : Tx α := fun db =>
  match x db with
  | .Err _ => .Panic
  | r => r

def map_err (e : DbfsError) (x : Tx α) : Tx α := fun db => DbfsResult.map_err e (x db)

/-- A check that does not look at the database, with `?` after it. -/
def check (r : DbfsResult α) : Tx α := fun db => r.bind fun a => .Ok (a, db)

/-- `a + b` of two `usize`. -/
def add_usize (a b : Nat) : Tx Nat := unwrap (if a + b < 2 ^ 64 then some (a + b) else none)

/-- `a - b` of two `usize`. -/
def sub_usize (a b : Nat) : Tx Nat := unwrap (if b ≤ a then some (a - b) else none)

def add_u32 (a b : UInt32) : Tx UInt32 :=
  unwrap (if a.toNat + b.toNat < 2 ^ 32 then some (a + b) else none)

def sub_u32 (a b : UInt32) : Tx UInt32 := unwrap (if b ≤ a then some (a - b) else none)

/-! ### The operations of the database -/

/-- `tx.get_bucket`. A bucket is used by its number from here on. -/
def get_bucket (n : UInt64) : Tx Unit := fun db => if db.Has n then .Ok ((), db) else .Err .NoData

/-- `bucket.get_kv`; to use a bucket that is gone panics. -/
def get_kv (n : UInt64) (k : Bytes) : Tx (Option Bytes) := fun db =>
  if db.Has n then .Ok (db.get n k, db) else .Panic

def put (n : UInt64) (k v : Bytes) : Tx Unit := fun db =>
  if db.Has n then .Ok ((), db.put n k v) else .Panic

/-- `if c { bucket.put(k, v) }`. -/
def put_if (c : Bool) (n : UInt64) (k v : Bytes) : Tx Unit := if c then put n k v else pure ()

/-- A row of `put`s into one bucket. -/
def puts (n : UInt64) : List (Bytes × Bytes) → Tx Unit
  | [] => pure ()
  | (k, v) :: kvs => do
    put n k v
    puts n kvs

def delete (n : UInt64) (k : Bytes) : Tx Unit := fun db =>
  if db.Has n then
    if (db.get n k).isSome then .Ok ((), db.delete n k) else .Err .NoData
  else .Panic

def create_bucket (n : UInt64) : Tx Unit := fun db =>
  if db.Has n then .Err .FileExists else .Ok ((), db.create n)

def delete_bucket (n : UInt64) : Tx Unit := fun db =>
  if db.Has n then .Ok ((), db.drop n) else .Err .NoData

/-- `u16!(bucket.get_kv(f).unwrap().value())`. -/
def read_u16 (n : UInt64) (f : Field) : Tx UInt16 := fun db => unwrap (db.u16 n f) db

def read_u32 (n : UInt64) (f : Field) : Tx UInt32 := fun db => unwrap (db.u32 n f) db

def read_usize (n : UInt64) (f : Field) : Tx Nat := fun db => unwrap (db.usize n f) db

def read_time (n : UInt64) (f : Field) : Tx DbfsTimeSpec := fun db =>
  unwrap ((db.get n f.key).bind dbfs_time_spec) db

/-- `tx.get_bucket("super_blk")`. -/
def get_super_blk : Tx Unit := fun db =>
  if db.super_blk.isSome then .Ok ((), db) else .Err .NoData

def sb_usize (f : Field) : Tx Nat := fun db => unwrap ((db.sb f).bind common.usize) db

def sb_u32 (f : Field) : Tx UInt32 := fun db => unwrap ((db.sb f).bind common.u32) db

def sb_put (f : Field) (v : Bytes) : Tx Unit := fun db =>
  if db.super_blk.isSome then .Ok ((), db.sb_put f v) else .Panic

/-! ### What a finished transaction has done

Every law of a call starts by taking its transaction apart with these. -/

variable {db db' : Db} {n : UInt64} {k v : Bytes} {f : Field} {u : Unit}

@[simp]
theorem pure_ok {a b : α} : (pure a : Tx α) db = .Ok (b, db') ↔ b = a ∧ db' = db := by
  change DbfsResult.Ok (a, db) = _ ↔ _
  simp [eq_comm]

@[simp]
theorem bind_ok {x : Tx α} {g : α → Tx β} {b : β} :
    (x >>= g) db = .Ok (b, db') ↔ ∃ a db₁, x db = .Ok (a, db₁) ∧ g a db₁ = .Ok (b, db') := by
  change (x db).bind _ = _ ↔ _
  rcases x db with ⟨a, db₁⟩ | e | _ <;> simp [DbfsResult.bind]

/-- A transaction goes on from where its first step ends. -/
theorem bind_of_ok {x : Tx α} {a : α} (h : x db = .Ok (a, db')) (g : α → Tx β) :
    (x >>= g) db = g a db' := by
  change (x db).bind _ = _
  rw [h]
  rfl

theorem bind_of_err {x : Tx α} {e : DbfsError} (h : x db = .Err e) (g : α → Tx β) :
    (x >>= g) db = .Err e := by
  change (x db).bind _ = _
  rw [h]
  rfl

theorem bind_of_panic {x : Tx α} (h : x db = .Panic) (g : α → Tx β) : (x >>= g) db = .Panic := by
  change (x db).bind _ = _
  rw [h]
  rfl

@[simp]
theorem ite_ok {c : Prop} [Decidable c] {x y : Tx α} {a : α} :
    (if c then x else y) db = .Ok (a, db') ↔
      (c ∧ x db = .Ok (a, db')) ∨ (¬ c ∧ y db = .Ok (a, db')) := by
  split_ifs with h <;> simp [h]

@[simp]
theorem fail_ok {e : DbfsError} {a : α} : (fail e : Tx α) db = .Ok (a, db') ↔ False := by
  simp [fail]

@[simp]
theorem unwrap_ok_iff {o : Option α} {a : α} :
    unwrap o db = .Ok (a, db') ↔ o = some a ∧ db' = db := by
  rcases o with _ | b <;> simp [unwrap, DbfsResult.unwrap, DbfsResult.bind, eq_comm]

@[simp]
theorem ensure_ok {c : Bool} {e : DbfsError} :
    ensure c e db = .Ok (u, db') ↔ c = true ∧ db' = db := by
  unfold ensure
  split
  · rename_i h
    simp [pure_ok, h]
  · rename_i h
    simp [fail_ok, h]

@[simp]
theorem assert_ok {c : Bool} : assert c db = .Ok (u, db') ↔ c = true ∧ db' = db := by
  rcases c with _ | _ <;> simp [assert, unwrap_ok_iff]

@[simp]
theorem ok_unwrap_ok {x : Tx α} {a : α} :
    unwrap_ok x db = .Ok (a, db') ↔ x db = .Ok (a, db') := by
  unfold unwrap_ok
  rcases x db with p | e | _ <;> simp

@[simp]
theorem map_err_ok {e : DbfsError} {x : Tx α} {a : α} :
    map_err e x db = .Ok (a, db') ↔ x db = .Ok (a, db') := DbfsResult.map_err_eq_ok

@[simp]
theorem check_ok {r : DbfsResult α} {a : α} :
    check r db = .Ok (a, db') ↔ r = .Ok a ∧ db' = db := by
  unfold check
  rcases r with b | e | _ <;> simp [DbfsResult.bind, eq_comm]

@[simp]
theorem add_usize_ok {a b c : Nat} :
    add_usize a b db = .Ok (c, db') ↔ a + b < 2 ^ 64 ∧ c = a + b ∧ db' = db := by
  unfold add_usize
  rw [unwrap_ok_iff]
  split_ifs with h
  · simp only [Option.some.injEq, h, true_and, eq_comm]
  · simp only [h, false_and]

@[simp]
theorem sub_usize_ok {a b c : Nat} :
    sub_usize a b db = .Ok (c, db') ↔ b ≤ a ∧ c = a - b ∧ db' = db := by
  unfold sub_usize
  rw [unwrap_ok_iff]
  split_ifs with h <;> simp [h, eq_comm]

@[simp]
theorem add_u32_ok {a b c : UInt32} :
    add_u32 a b db = .Ok (c, db') ↔ a.toNat + b.toNat < 2 ^ 32 ∧ c = a + b ∧ db' = db := by
  unfold add_u32
  rw [unwrap_ok_iff]
  split_ifs with h
  · simp only [Option.some.injEq, h, true_and, eq_comm]
  · simp only [h, false_and]

@[simp]
theorem sub_u32_ok {a b c : UInt32} :
    sub_u32 a b db = .Ok (c, db') ↔ b ≤ a ∧ c = a - b ∧ db' = db := by
  unfold sub_u32
  rw [unwrap_ok_iff]
  split_ifs with h <;> simp [h, eq_comm]

@[simp]
theorem get_bucket_ok : get_bucket n db = .Ok (u, db') ↔ db.Has n ∧ db' = db := by
  unfold get_bucket
  split_ifs with h <;> simp [h, eq_comm]

@[simp]
theorem get_kv_ok {o : Option Bytes} :
    get_kv n k db = .Ok (o, db') ↔ db.Has n ∧ o = db.get n k ∧ db' = db := by
  unfold get_kv
  split_ifs with h <;> simp [h, eq_comm]

@[simp]
theorem put_ok : put n k v db = .Ok (u, db') ↔ db.Has n ∧ db' = db.put n k v := by
  unfold put
  split_ifs with h <;> simp [h, eq_comm]

@[simp]
theorem put_if_ok {c : Bool} : put_if c n k v db = .Ok (u, db') ↔
    (c = true → db.Has n) ∧ db' = db.put_if c n k v := by
  rcases c with _ | _
  · simp [put_if, Db.put_if]
  · simp [put_if, Db.put_if]

@[simp]
theorem puts_ok {kvs : List (Bytes × Bytes)} (h : db.Has n) :
    puts n kvs db = .Ok (u, db') ↔ db' = db.puts n kvs := by
  induction kvs generalizing db with
  | nil => simp [puts, pure_ok, Db.puts]
  | cons kv kvs ih =>
    have h' : (db.put n kv.1 kv.2).Has n := (Db.has_put db n n kv.1 kv.2).mpr h
    have hcons := ih h'
    simp only [puts, bind_ok, put_ok, h, true_and, Db.puts, List.foldl_cons]
    constructor
    · rintro ⟨_, db₁, rfl, h₁⟩
      exact hcons.mp h₁
    · intro h₁
      exact ⟨(), _, rfl, hcons.mpr h₁⟩

@[simp]
theorem delete_ok :
    delete n k db = .Ok (u, db') ↔ (db.get n k).isSome ∧ db' = db.delete n k := by
  unfold delete
  by_cases hs : (db.get n k).isSome
  · obtain ⟨w, hw⟩ := Option.isSome_iff_exists.mp hs
    simp [Db.has_of_get hw, hs, eq_comm]
  · split_ifs with h <;> simp [hs]

@[simp]
theorem create_bucket_ok :
    create_bucket n db = .Ok (u, db') ↔ ¬ db.Has n ∧ db' = db.create n := by
  unfold create_bucket
  split_ifs with h <;> simp [h, eq_comm]

@[simp]
theorem delete_bucket_ok :
    delete_bucket n db = .Ok (u, db') ↔ db.Has n ∧ db' = db.drop n := by
  unfold delete_bucket
  split_ifs with h <;> simp [h, eq_comm]

@[simp]
theorem read_u16_ok {x : UInt16} :
    read_u16 n f db = .Ok (x, db') ↔ db.u16 n f = some x ∧ db' = db := unwrap_ok_iff

@[simp]
theorem read_u32_ok {x : UInt32} :
    read_u32 n f db = .Ok (x, db') ↔ db.u32 n f = some x ∧ db' = db := unwrap_ok_iff

@[simp]
theorem read_usize_ok {x : Nat} :
    read_usize n f db = .Ok (x, db') ↔ db.usize n f = some x ∧ db' = db := unwrap_ok_iff

@[simp]
theorem read_time_ok {t : DbfsTimeSpec} :
    read_time n f db = .Ok (t, db') ↔
      (db.get n f.key).bind dbfs_time_spec = some t ∧ db' = db := unwrap_ok_iff

@[simp]
theorem get_super_blk_ok :
    get_super_blk db = .Ok (u, db') ↔ db.super_blk.isSome ∧ db' = db := by
  unfold get_super_blk
  split_ifs with h <;> simp [h, eq_comm]

@[simp]
theorem sb_usize_ok {x : Nat} :
    sb_usize f db = .Ok (x, db') ↔ (db.sb f).bind common.usize = some x ∧ db' = db :=
  unwrap_ok_iff

@[simp]
theorem sb_u32_ok {x : UInt32} :
    sb_u32 f db = .Ok (x, db') ↔ (db.sb f).bind common.u32 = some x ∧ db' = db := unwrap_ok_iff

@[simp]
theorem sb_put_ok : sb_put f v db = .Ok (u, db') ↔ db.super_blk.isSome ∧ db' = db.sb_put f v := by
  unfold sb_put
  split_ifs with h <;> simp [h, eq_comm]

/-! ### How a transaction fails -/

variable {e e' : DbfsError}

@[simp]
theorem pure_err {a : α} : (pure a : Tx α) db = .Err e ↔ False := by
  change DbfsResult.Ok (a, db) = _ ↔ _
  simp

@[simp]
theorem bind_err {x : Tx α} {g : α → Tx β} : (x >>= g) db = .Err e ↔
    x db = .Err e ∨ ∃ a db₁, x db = .Ok (a, db₁) ∧ g a db₁ = .Err e := by
  change (x db).bind _ = _ ↔ _
  rcases x db with ⟨a, db₁⟩ | e₁ | _ <;> simp [DbfsResult.bind]

@[simp]
theorem ite_err {c : Prop} [Decidable c] {x y : Tx α} :
    (if c then x else y) db = .Err e ↔ (c ∧ x db = .Err e) ∨ (¬ c ∧ y db = .Err e) := by
  split_ifs with h <;> simp [h]

@[simp]
theorem fail_err : (fail e' : Tx α) db = .Err e ↔ e' = e := by
  simp [fail]

@[simp]
theorem unwrap_err {o : Option α} : unwrap o db = .Err e ↔ False := by
  rcases o with _ | a <;> simp [unwrap, DbfsResult.unwrap, DbfsResult.bind]

@[simp]
theorem ensure_err {c : Bool} : ensure c e' db = .Err e ↔ c = false ∧ e' = e := by
  rcases c with _ | _ <;> simp [ensure]

@[simp]
theorem unwrap_ok_err {x : Tx α} : unwrap_ok x db = .Err e ↔ False := by
  unfold unwrap_ok
  rcases x db with ⟨a, db₁⟩ | e₁ | _ <;> simp

@[simp]
theorem sub_usize_err {a b : Nat} : sub_usize a b db = .Err e ↔ False := unwrap_err

@[simp]
theorem add_usize_err {a b : Nat} : add_usize a b db = .Err e ↔ False := unwrap_err

@[simp]
theorem get_bucket_err : get_bucket n db = .Err e ↔ ¬ db.Has n ∧ .NoData = e := by
  unfold get_bucket
  split_ifs with h <;> simp [h]

@[simp]
theorem get_kv_err : get_kv n k db = .Err e ↔ False := by
  unfold get_kv
  split_ifs <;> simp

@[simp]
theorem put_err : put n k v db = .Err e ↔ False := by
  unfold put
  split_ifs <;> simp

@[simp]
theorem put_if_err {c : Bool} : put_if c n k v db = .Err e ↔ False := by
  rcases c with _ | _ <;> simp [put_if]

@[simp]
theorem puts_err {kvs : List (Bytes × Bytes)} : puts n kvs db = .Err e ↔ False := by
  induction kvs generalizing db with
  | nil => exact pure_err
  | cons kv kvs ih => simp [puts, ih]

@[simp]
theorem delete_err :
    delete n k db = .Err e ↔ db.Has n ∧ db.get n k = none ∧ .NoData = e := by
  unfold delete
  split_ifs with h hs
  · obtain ⟨w, hw⟩ := Option.isSome_iff_exists.mp hs
    simp [hw]
  · simp [h, Option.not_isSome_iff_eq_none.mp hs]
  · simp [h]

@[simp]
theorem delete_bucket_err : delete_bucket n db = .Err e ↔ ¬ db.Has n ∧ .NoData = e := by
  unfold delete_bucket
  split_ifs with h <;> simp [h]

@[simp]
theorem create_bucket_err : create_bucket n db = .Err e ↔ db.Has n ∧ .FileExists = e := by
  unfold create_bucket
  split_ifs with h <;> simp [h]

@[simp]
theorem read_u16_err : read_u16 n f db = .Err e ↔ False := unwrap_err

@[simp]
theorem read_u32_err : read_u32 n f db = .Err e ↔ False := unwrap_err

@[simp]
theorem read_usize_err : read_usize n f db = .Err e ↔ False := unwrap_err

@[simp]
theorem read_time_err : read_time n f db = .Err e ↔ False := unwrap_err

@[simp]
theorem assert_err {c : Bool} : assert c db = .Err e ↔ False := unwrap_err

end Tx

/-! ## Processes -/

/-- A saved place in a listing. -/
structure ReadDirInfo where
  offset : Nat
  key : String
  deriving DecidableEq, Repr

/-- The database and the statics of the process that has it open. -/
structure Sys where
  db : Db
  DBFS_INODE_NUMBER : UInt64
  GLOBAL_READDIR_TABLE : OrdMap UInt64 ReadDirInfo
  deriving DecidableEq

/-- A call: what it committed or stored stays, also when it then fails. -/
def Fs (α : Type) := Sys → DbfsResult α × Sys

namespace Fs

variable {α β : Type}

instance : Monad Fs where
  pure a := fun s => (.Ok a, s)
  bind x f := fun s =>
    match x s with
    | (.Ok a, s') => f a s'
    | (.Err e, s') => (.Err e, s')
    | (.Panic, s') => (.Panic, s')

def fail (e : DbfsError) : Fs α := fun s => (.Err e, s)

def unwrap (o : Option α) : Fs α := fun s => (DbfsResult.unwrap o, s)

def ensure (c : Bool) (e : DbfsError) : Fs Unit := if c then pure () else fail e

def map_err (e : DbfsError) (x : Fs α) : Fs α := fun s => ((x s).1.map_err e, (x s).2)

/-- A write transaction with its commit. -/
def write (x : Tx α) : Fs α := fun s =>
  match x s.db with
  | .Ok (a, db') => (.Ok a, { s with db := db' })
  | .Err e => (.Err e, s)
  | .Panic => (.Panic, s)

/-- A read transaction. -/
def read (x : Tx α) : Fs α := fun s =>
  match x s.db with
  | .Ok (a, _) => (.Ok a, s)
  | .Err e => (.Err e, s)
  | .Panic => (.Panic, s)

/-- A write transaction that is dropped without a commit. -/
def dropped (x : Tx α) : Fs α := read x

variable {s s' : Sys}

theorem bind_eq (x : Fs α) (g : α → Fs β) (s : Sys) :
    (x >>= g) s =
      match x s with
      | (.Ok a, s') => g a s'
      | (.Err e, s') => (.Err e, s')
      | (.Panic, s') => (.Panic, s') := rfl

instance : LawfulMonad Fs := by
  refine LawfulMonad.mk' Fs ?_ ?_ ?_
  · intro α x
    funext s
    change (x >>= pure) s = x s
    rw [bind_eq]
    rcases x s with ⟨_ | _ | _, s'⟩ <;> rfl
  · intro α β a f
    rfl
  · intro α β γ x f g
    funext s
    simp only [bind_eq]
    rcases x s with ⟨_ | _ | _, s'⟩ <;> rfl

@[simp]
theorem pure_ok {a b : α} : (pure a : Fs α) s = (.Ok b, s') ↔ b = a ∧ s' = s := by
  change (DbfsResult.Ok a, s) = _ ↔ _
  simp [eq_comm]

@[simp]
theorem bind_ok {x : Fs α} {g : α → Fs β} {b : β} :
    (x >>= g) s = (.Ok b, s') ↔ ∃ a s₁, x s = (.Ok a, s₁) ∧ g a s₁ = (.Ok b, s') := by
  rw [bind_eq]
  rcases x s with ⟨a | e | _, s₁⟩ <;> simp

@[simp]
theorem map_ok {x : Fs α} {g : α → β} {b : β} :
    (g <$> x) s = (.Ok b, s') ↔ ∃ a, x s = (.Ok a, s') ∧ b = g a := by
  rw [map_eq_pure_bind, bind_ok]
  constructor
  · rintro ⟨a, s₁, hx, h⟩
    obtain ⟨rfl, rfl⟩ := pure_ok.mp h
    exact ⟨a, hx, rfl⟩
  · rintro ⟨a, hx, rfl⟩
    exact ⟨a, s', hx, rfl⟩

@[simp]
theorem fail_ok {e : DbfsError} {a : α} : (fail e : Fs α) s = (.Ok a, s') ↔ False := by
  simp [fail]

@[simp]
theorem unwrap_ok {o : Option α} {a : α} :
    unwrap o s = (.Ok a, s') ↔ o = some a ∧ s' = s := by
  rcases o with _ | b <;> simp [unwrap, DbfsResult.unwrap, eq_comm]

@[simp]
theorem ensure_ok {c : Bool} {e : DbfsError} {u : Unit} :
    ensure c e s = (.Ok u, s') ↔ c = true ∧ s' = s := by
  unfold ensure
  rcases c with _ | _
  · simp [fail_ok]
  · simp [pure_ok]

@[simp]
theorem map_err_ok {e : DbfsError} {x : Fs α} {a : α} :
    map_err e x s = (.Ok a, s') ↔ x s = (.Ok a, s') := by
  unfold map_err
  rw [Prod.mk.injEq, DbfsResult.map_err_eq_ok, Prod.ext_iff]

@[simp]
theorem write_ok {x : Tx α} {a : α} :
    write x s = (.Ok a, s') ↔ ∃ db', x s.db = .Ok (a, db') ∧ s' = { s with db := db' } := by
  unfold write
  rcases x s.db with ⟨b, db₁⟩ | e | _
  · simp only [Prod.mk.injEq, DbfsResult.Ok.injEq]
    constructor
    · rintro ⟨rfl, rfl⟩
      exact ⟨db₁, ⟨rfl, rfl⟩, rfl⟩
    · rintro ⟨db', ⟨rfl, rfl⟩, rfl⟩
      exact ⟨rfl, rfl⟩
  · simp
  · simp

@[simp]
theorem read_ok {x : Tx α} {a : α} :
    read x s = (.Ok a, s') ↔ (∃ db', x s.db = .Ok (a, db')) ∧ s' = s := by
  unfold read
  rcases x s.db with ⟨b, db₁⟩ | e | _
  · simp only [Prod.mk.injEq, DbfsResult.Ok.injEq]
    constructor
    · rintro ⟨rfl, rfl⟩
      exact ⟨⟨db₁, rfl, rfl⟩, rfl⟩
    · rintro ⟨⟨db', rfl, rfl⟩, rfl⟩
      exact ⟨rfl, rfl⟩
  · simp
  · simp

/-! ### A call, step by step -/

theorem bind_read (x : Tx α) (g : α → Fs β) (s : Sys) :
    (read x >>= g) s =
      match x s.db with
      | .Ok (a, _) => g a s
      | .Err e => (.Err e, s)
      | .Panic => (.Panic, s) := by
  rw [bind_eq, read]
  rcases x s.db with ⟨b, db₁⟩ | e | _ <;> rfl

theorem bind_read_err {x : Tx α} {g : α → Fs β} {e : DbfsError} : (read x >>= g) s = (.Err e, s') ↔
    (x s.db = .Err e ∧ s' = s) ∨ ∃ a db', x s.db = .Ok (a, db') ∧ g a s = (.Err e, s') := by
  rw [bind_read]
  rcases x s.db with ⟨b, db₁⟩ | e' | _ <;> simp [eq_comm]

theorem write_err {x : Tx α} {e : DbfsError} :
    write x s = (.Err e, s') ↔ x s.db = .Err e ∧ s' = s := by
  unfold write
  rcases x s.db with ⟨b, db₁⟩ | e' | _ <;> simp [eq_comm]

theorem bind_write (x : Tx α) (g : α → Fs β) (s : Sys) :
    (write x >>= g) s =
      match x s.db with
      | .Ok (a, db') => g a { s with db := db' }
      | .Err e => (.Err e, s)
      | .Panic => (.Panic, s) := by
  rw [bind_eq, write]
  rcases x s.db with ⟨b, db₁⟩ | e | _ <;> rfl

theorem bind_ensure (c : Bool) (e : DbfsError) (g : Unit → Fs β) (s : Sys) :
    (ensure c e >>= g) s = if c then g () s else (.Err e, s) := by
  rcases c with _ | _ <;> rfl

theorem map_err_read (e : DbfsError) (x : Tx α) : map_err e (read x) = read (Tx.map_err e x) := by
  funext s
  unfold map_err read Tx.map_err
  rcases x s.db with ⟨b, db₁⟩ | e | _ <;> rfl

/-- A result that is thrown away leaves the state as it is. -/
theorem discard_state (x : Fs α) (s : Sys) :
    ((x >>= fun _ => (pure () : Fs Unit)) s).2 = (x s).2 := by
  rw [bind_eq]
  rcases x s with ⟨a | e | _, s₁⟩ <;> rfl

/-- A read transaction changes nothing, whatever its end. -/
@[simp]
theorem read_state (x : Tx α) (s : Sys) : (read x s).2 = s := by
  unfold read
  rcases x s.db with ⟨b, db₁⟩ | e | _ <;> rfl

/-- A write transaction either commits or changes nothing. -/
theorem write_state (x : Tx α) (s : Sys) :
    (write x s).2 = s ∨
      ∃ a db', x s.db = .Ok (a, db') ∧ write x s = (.Ok a, { s with db := db' }) := by
  unfold write
  rcases x s.db with ⟨b, db₁⟩ | e | _
  · exact .inr ⟨b, db₁, rfl, rfl⟩
  · exact .inl rfl
  · exact .inl rfl

/-! ### Calls that change nothing when they fail -/

def Atomic (x : Fs α) : Prop := ∀ s, (x s).2 = s ∨ ∃ a, (x s).1 = .Ok a

theorem Atomic.write (x : Tx α) : Atomic (Fs.write x) := by
  intro s
  rcases write_state x s with h | ⟨a, _, _, h⟩
  · exact .inl h
  · exact .inr ⟨a, by rw [h]⟩

/-- What comes before the only change may look at the state. -/
theorem Atomic.after {x : Fs α} {g : α → Fs β} (hx : ∀ s, (x s).2 = s) (hg : ∀ a, Atomic (g a)) :
    Atomic (x >>= g) := by
  intro s
  have hs := hx s
  rw [bind_eq]
  rcases h : x s with ⟨a | e | _, s'⟩
  · rw [h] at hs
    subst hs
    exact hg a _
  · rw [h] at hs
    exact .inl hs
  · rw [h] at hs
    exact .inl hs

theorem Atomic.discard {x : Fs α} (h : Atomic x) : Atomic (x >>= fun _ => (pure () : Fs Unit)) := by
  intro s
  rw [discard_state]
  rcases h s with h | ⟨a, h⟩
  · exact .inl h
  · refine .inr ⟨(), ?_⟩
    rw [bind_eq]
    rcases hx : x s with ⟨r, s'⟩
    rw [hx] at h
    simp only at h
    subst h
    rfl

end Fs

end dbfs2
