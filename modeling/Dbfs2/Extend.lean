-- The operations that a program outside can run on the database (extend.rs): sets of
-- operations on a bucket, some of which step into a bucket inside it with a set of their
-- own. Every failure of the database is unwrapped, so that a set runs to its end or stops.
import Dbfs2.BucketPaths
import Dbfs2.Common

namespace dbfs2

open common

namespace extend

abbrev Tree := BucketTree Bytes Bytes

/-- What `Read` copies out: an address and the bytes that go there. -/
abbrev Written := List (Nat × Bytes)

inductive Operate where
  | RenameKey (old_key new_key : String)
  | AddKey (map : List (String × Bytes))
  | AddBucket (key : String) (other : Option (List Operate))
  | DeleteKey (keys : List String)
  | Read (keys : List String) (buf_addr buf_size : Nat)
  | StepInto (key : String) (other : Option (List Operate))

abbrev OperateSet := List Operate

/-- Walks over the one bucket and copies what it meets into the other. A bucket is made anew
there, and the walk goes on inside the two. -/
def copy_bucket_data_recursive (old_bucket new_bucket : Tree) : Option Tree :=
  old_bucket.entries.foldlM (fun new_bucket data =>
    match data.2 with
    | .kv value => new_bucket.put data.1 value
    | .bucket _ =>
      (new_bucket.create_bucket data.1).bind fun new_bucket =>
        (new_bucket.get_bucket data.1).bind fun new =>
          match _h : old_bucket.get_bucket data.1 with
          | none => none
          | some old => (copy_bucket_data_recursive old new).map (new_bucket.set_bucket data.1 ·))
    new_bucket
termination_by old_bucket.size
decreasing_by exact BucketTree.size_get_bucket _h

namespace handles

open BucketTree (InTx)
open BucketTree.InTx

/-- The copy as it runs: the two buckets are handles on one tree, and the old one is looked up in
what the copy has made of it so far. -/
def copy_bucket_data_recursive :
    Nat → (old_bucket new_bucket : List Bytes) → InTx Bytes Bytes Unit
  | 0, _, _ => failure
  | fuel + 1, old_bucket, new_bucket => do
    let data ← cursor old_bucket
    data.forM fun data =>
      match data.2 with
      | .kv value => put new_bucket data.1 value
      | .bucket _ => do
        let new_bucket ← create_bucket new_bucket data.1
        let old_bucket ← get_bucket old_bucket data.1
        copy_bucket_data_recursive fuel old_bucket new_bucket

/-- What `RenameKey` does to a bucket that it moves. -/
def rename_bucket (fuel : Nat) (bucket : List Bytes) (old_key new_key : String) :
    InTx Bytes Bytes Unit := do
  let new_bucket ← create_bucket bucket (as_bytes new_key)
  let old_bucket ← get_bucket bucket (as_bytes old_key)
  copy_bucket_data_recursive fuel old_bucket new_bucket
  delete_bucket bucket (as_bytes old_key)

end handles

/-- A value is put under the new key, a bucket is copied there and deleted. -/
def rename_key (old_key new_key : String) (bucket : Tree) : Option Tree :=
  match bucket.get (as_bytes old_key) with
  | none => some bucket
  | some value =>
    if old_key = new_key then some bucket
    else if (bucket.get (as_bytes new_key)).isSome then some bucket
    else
      match value with
      | .kv v => bucket.put (as_bytes new_key) v
      | .bucket _ => do
        let bucket ← bucket.create_bucket (as_bytes new_key)
        let new_bucket ← bucket.get_bucket (as_bytes new_key)
        let old_bucket ← bucket.get_bucket (as_bytes old_key)
        let new_bucket ← copy_bucket_data_recursive old_bucket new_bucket
        (bucket.set_bucket (as_bytes new_key) new_bucket).delete_bucket (as_bytes old_key)

def add_key (map : List (String × Bytes)) (bucket : Tree) : Option Tree :=
  map.foldlM (fun bucket kv => bucket.put (as_bytes kv.1) kv.2) bucket

def delete_key (keys : List String) (bucket : Tree) : Option Tree :=
  keys.foldlM (fun bucket key => bucket.delete (as_bytes key)) bucket

/-- The values of the keys one behind the other, as far as the buffer goes. -/
def read_keys (keys : List String) (buf_size : Nat) (bucket : Tree) : Option Bytes :=
  keys.foldlM (fun buf key => do
    let value ← bucket.get_kv (as_bytes key)
    let len := min (buf_size - buf.length) value.length
    some (buf ++ value.take len)) []

mutual

def operate : Operate → Tree → Option (Tree × Written)
  | .RenameKey old_key new_key, bucket => (rename_key old_key new_key bucket).map (·, [])
  | .AddKey map, bucket => (add_key map bucket).map (·, [])
  | .AddBucket key other, bucket =>
    if (bucket.get_bucket (as_bytes key)).isSome then some (bucket, [])
    else do
      let bucket ← bucket.create_bucket (as_bytes key)
      let new_bucket ← bucket.get_bucket (as_bytes key)
      let (new_bucket, written) ← operate_other other new_bucket
      some (bucket.set_bucket (as_bytes key) new_bucket, written)
  | .DeleteKey keys, bucket => (delete_key keys bucket).map (·, [])
  | .Read keys buf_addr buf_size, bucket =>
    (read_keys keys buf_size bucket).map fun buf => (bucket, [(buf_addr, buf)])
  | .StepInto key other, bucket => do
    let new_bucket ← bucket.get_bucket (as_bytes key)
    let (new_bucket, written) ← operate_other other new_bucket
    some (bucket.set_bucket (as_bytes key) new_bucket, written)

def operate_other : Option (List Operate) → Tree → Option (Tree × Written)
  | none, bucket => some (bucket, [])
  | some operates, bucket => execute_operate_real operates bucket

def execute_operate_real : List Operate → Tree → Option (Tree × Written)
  | [], bucket => some (bucket, [])
  | i :: operates, bucket => do
    let (bucket, written) ← operate i bucket
    let (bucket, written') ← execute_operate_real operates bucket
    some (bucket, written ++ written')

end

/-- Down a path and back. -/
def execute_at : List String → OperateSet → Tree → Option (Tree × Written)
  | [], operates, bucket => execute_operate_real operates bucket
  | key :: path, operates, bucket => do
    let new_bucket ← bucket.get_bucket (as_bytes key)
    let (new_bucket, written) ← execute_at path operates new_bucket
    some (bucket.set_bucket (as_bytes key) new_bucket, written)

/-- The first part of the path names a bucket of the database. -/
def execute_operate (bucket : String) (operates : OperateSet) (db : Tree) :
    Option (Tree × Written) := execute_at (bucket.splitOn ":") operates db

end extend

open extend

/-! ## Copies -/

/-- The walk over a bucket, turn by turn. -/
theorem copy_foldlM (old new : Tree) : copy_bucket_data_recursive old new =
    old.entries.foldlM (fun new data =>
      match data.2 with
      | .kv value => new.put data.1 value
      | .bucket _ =>
        (new.create_bucket data.1).bind fun made =>
          (made.get_bucket data.1).bind fun inner =>
            (old.get_bucket data.1).bind fun sub =>
              (copy_bucket_data_recursive sub inner).map (made.set_bucket data.1 ·)) new := by
  rw [copy_bucket_data_recursive]
  congr 1
  funext new data
  obtain ⟨k, d⟩ := data
  cases d with
  | kv v => rfl
  | bucket es =>
    simp only
    congr 1
    funext made
    congr 1
    funext inner
    split
    · rename_i hnone
      rw [hnone]
      rfl
    · rename_i sub hsub
      rw [hsub]
      rfl

/-- The copy of a bucket into a new one is the bucket. -/
theorem copy_eq (b : Tree) : copy_bucket_data_recursive b ∅ = some b := by
  -- a bucket inside is smaller, and what is made for it is empty
  induction hsize : b.size using Nat.strong_induction_on generalizing b with
  | _ size ih =>
    subst hsize
    rw [copy_foldlM]
    refine BucketTree.foldlM_rebuilds fun e he c hfree => ?_
    obtain ⟨k, d⟩ := e
    cases d with
    | kv v => exact ⟨.kv v, BucketTree.put_of_free hfree v⟩
    | bucket es =>
      have hget : b.get k = some (.bucket es) := OrdMap.mem_entries.mp he
      obtain ⟨sub, hsub, hdata⟩ := BucketTree.exists_get_bucket hget
      refine ⟨hdata ▸ sub.data_ordered, ?_⟩
      simp only [BucketTree.create_bucket_of_free hfree, Option.bind_some,
        BucketTree.get_bucket_set, hsub]
      rw [ih sub.size (BucketTree.size_get_bucket hsub) sub rfl, Option.map_some,
        BucketTree.set_set_bucket]
      simp only [BucketTree.set_bucket, hdata]

/-! ## Copies in a transaction -/

section handles

open BucketTree

variable {tx src dst : Tree} {old new : List Bytes} {fuel : Nat}

/-- The copy through handles does to the new bucket what the copy of trees says, as long as the two
are apart. -/
theorem copy_in_tx (hold : tx.at_path old = some src) (hnew : tx.at_path new = some dst)
    (hapart : Apart new old) (hfuel : src.size < fuel) :
    handles.copy_bucket_data_recursive fuel old new tx =
      (copy_bucket_data_recursive src dst).map fun c => ((), tx.place new c) := by
  induction fuel generalizing tx src dst old new with
  | zero => exact absurd hfuel (Nat.not_lt_zero _)
  | succ fuel ih =>
    rw [handles.copy_bucket_data_recursive, InTx.bind_of_some (InTx.cursor_eq hold), copy_foldlM]
    conv_lhs => rw [← place_at_path hnew]
    refine InTx.forM_eq (fun e he c => ?_) dst
    obtain ⟨k, d⟩ := e
    cases d with
    | kv v => exact InTx.modify_place hnew _ c
    | bucket es =>
      have hget : src.get k = some (.bucket es) := OrdMap.mem_entries.mp he
      obtain ⟨sub, hsub, _⟩ := exists_get_bucket hget
      change (InTx.create_bucket new k >>= _) (tx.place new c) = _
      rw [InTx.bind_eq, InTx.create_bucket_place hnew]
      rcases hmade : c.create_bucket k with _ | made
      · rfl
      have hempty := get_bucket_of_create hmade
      -- the source is where it was, and a bucket inside it is smaller
      have hsrc : (tx.place new made).at_path old = some src := by
        rw [at_path_place_apart hapart, hold]
      have hinner : (tx.place new made).at_path (old ++ [k]) = some sub := by
        rw [at_path_concat hsrc, hsub]
      have hdst := at_path_place hnew made
      have hsize : sub.size < fuel := by
        have := size_get_bucket hsub
        omega
      have hcopy := ih hinner ((at_path_concat hdst k).trans hempty) (hapart.concat k) hsize
      simp only [Option.map_some, Option.bind_some, hempty, hsub]
      change (InTx.get_bucket old k >>= _) (tx.place new made) = _
      rw [InTx.bind_of_some (InTx.get_bucket_eq hinner), hcopy, Option.map_map]
      simp only [place_concat hdst hempty, place_place hnew, Function.comp_def]

/-- No bucket inside the source can be made the same. -/
theorem not_copied_inside {k : Bytes} {path : List Bytes} (hold : tx.at_path old = some src) :
    tx.at_path (old ++ k :: path) ≠ some src := by
  intro hnew
  rw [at_path_append, hold] at hnew
  exact absurd (size_at_path hnew) (lt_irrefl _)

end handles

/-- The copy of a bucket into a new one ends, and has made the new one the same tree. Anywhere in a
transaction but inside the source itself, it leaves the source and all that is apart from the new
bucket as they were. -/
theorem copy_is_faithful (src : Tree) :
    copy_bucket_data_recursive src ∅ = some src ∧
      ∀ (tx : Tree) (old new : List Bytes), tx.at_path old = some src →
        tx.at_path new = some ∅ → ¬ old <+: new →
        ∃ fuel tx', (∀ more, fuel ≤ more →
            handles.copy_bucket_data_recursive more old new tx = some ((), tx')) ∧
          tx'.at_path old = some src ∧ tx'.at_path new = some src ∧
          ∀ path, BucketTree.Apart new path → tx'.at_path path = tx.at_path path := by
  refine ⟨copy_eq src, fun tx old new hold hnew hother => ?_⟩
  have hapart := (BucketTree.apart_of_empty hold hnew hother).symm
  refine ⟨src.size + 1, tx.place new src, fun more hmore => ?_, ?_,
    BucketTree.at_path_place hnew src, fun path hpath => BucketTree.at_path_place_apart hpath src⟩
  · rw [copy_in_tx hold hnew hapart hmore, copy_eq]
    rfl
  · rw [BucketTree.at_path_place_apart hapart, hold]

section sample

/-- A value, and a bucket with a value inside it. -/
def two_levels : Tree :=
  ((∅ : Tree).bind (as_bytes "k") (.kv [1]) (.kv [1])).set_bucket (as_bytes "b")
    ((∅ : Tree).bind (as_bytes "k") (.kv [2]) (.kv [2]))

def beside_empty : Tree :=
  ((∅ : Tree).set_bucket (as_bytes "a") two_levels).set_bucket (as_bytes "c") ∅

theorem two_levels_copied :
    ∃ fuel tx', (∀ more, fuel ≤ more → handles.copy_bucket_data_recursive more [as_bytes "a"]
        [as_bytes "c"] beside_empty = some ((), tx')) ∧
      tx'.at_path [as_bytes "a"] = some two_levels ∧
      tx'.at_path [as_bytes "c"] = some two_levels ∧
      ∀ path, BucketTree.Apart [as_bytes "c"] path →
        tx'.at_path path = beside_empty.at_path path :=
  (copy_is_faithful two_levels).2 beside_empty [as_bytes "a"] [as_bytes "c"] rfl rfl (by decide)

end sample

/-! ## Renames -/

/-- The key is renamed: what stood under the old one stands under the new one, and the rest is as
it was. Where there is nothing to rename, or no place for it, nothing changes. -/
def MovesKey (b b' : Tree) (old_key new_key : String) : Prop :=
  if (b.get (as_bytes old_key)).isSome ∧ b.get (as_bytes new_key) = none ∧ old_key ≠ new_key then
    b'.get (as_bytes new_key) = b.get (as_bytes old_key) ∧ b'.get (as_bytes old_key) = none ∧
      ∀ k, k ≠ as_bytes old_key → k ≠ as_bytes new_key → b'.get k = b.get k
  else b' = b

section rename

open BucketTree

variable {b : Tree} {old_key new_key : String}

/-- There is nothing to do, or no place to do it. -/
theorem rename_key_skips (h : b.get (as_bytes old_key) = none ∨ old_key = new_key ∨
    (b.get (as_bytes new_key)).isSome = true) : rename_key old_key new_key b = some b := by
  unfold rename_key
  rcases hold : b.get (as_bytes old_key) with _ | value
  · rfl
  · rcases h with h | h | h
    · exact absurd (hold.symm.trans h) (by simp)
    · simp only [if_pos h]
    · simp only [h, if_true, ite_self]

theorem movesKey_of_skip (h : b.get (as_bytes old_key) = none ∨ old_key = new_key ∨
    (b.get (as_bytes new_key)).isSome = true) : MovesKey b b old_key new_key := by
  rw [MovesKey, if_neg]
  rintro ⟨hold, hnew, hne⟩
  rcases h with h | h | h
  · rw [h] at hold
    cases hold
  · exact hne h
  · rw [hnew] at h
    cases h

/-- A value is put under the new key. -/
theorem rename_key_value {v : Bytes} (hold : b.get (as_bytes old_key) = some (.kv v))
    (hne : old_key ≠ new_key) (hnew : b.get (as_bytes new_key) = none) :
    rename_key old_key new_key b = some (b.bind (as_bytes new_key) (.kv v) (.kv v)) := by
  simp only [rename_key, hold, hnew, if_neg hne, Option.isSome_none, Bool.false_eq_true, if_false]
  exact put_of_free hnew v

/-- And it stays under the old one. -/
theorem not_movesKey_value {v : Bytes} (hold : b.get (as_bytes old_key) = some (.kv v))
    (hne : old_key ≠ new_key) (hnew : b.get (as_bytes new_key) = none) :
    ¬ MovesKey b (b.bind (as_bytes new_key) (.kv v) (.kv v)) old_key new_key := by
  have hkey : as_bytes old_key ≠ as_bytes new_key := fun e => hne (as_bytes_injective e)
  rw [MovesKey, if_pos ⟨by rw [hold]; rfl, hnew, hne⟩]
  rintro ⟨_, hgone, _⟩
  rw [get_bind, if_neg hkey, hold] at hgone
  cases hgone

/-- A bucket is copied, and the old one deleted. -/
theorem rename_key_bucket {c : Tree} (hold : b.get_bucket (as_bytes old_key) = some c)
    (hne : old_key ≠ new_key) (hnew : b.get (as_bytes new_key) = none) :
    rename_key old_key new_key b =
      some ((b.set_bucket (as_bytes new_key) c).unbind (as_bytes old_key)) := by
  have hdata := get_bucket_eq_some.mp hold
  have hkey : as_bytes old_key ≠ as_bytes new_key := fun e => hne (as_bytes_injective e)
  have hold' : ∀ d, (b.set_bucket (as_bytes new_key) d).get (as_bytes old_key) = some c.data := by
    intro d
    rw [get_set_bucket, if_neg hkey, hdata]
  simp only [rename_key, hdata, data, hnew, if_neg hne, Option.isSome_none,
    Bool.false_eq_true, if_false, create_bucket_of_free hnew, Option.bind_eq_bind,
    Option.bind_some, get_bucket_set, get_bucket_eq_some.mpr (hold' ∅),
    copy_eq, set_set_bucket]
  exact delete_bucket_of_data (hold' c)

/-- Through handles it is moved in the same way: the new bucket stands beside the old one. -/
theorem rename_bucket_in_tx {tx c : Tree} {bucket : List Bytes} {fuel : Nat}
    (hb : tx.at_path bucket = some b) (hold : b.get_bucket (as_bytes old_key) = some c)
    (hne : old_key ≠ new_key) (hnew : b.get (as_bytes new_key) = none) (hfuel : c.size < fuel) :
    handles.rename_bucket fuel bucket old_key new_key tx =
      (rename_key old_key new_key b).map fun b' => ((), tx.place bucket b') := by
  have hkey : as_bytes old_key ≠ as_bytes new_key := fun e => hne (as_bytes_injective e)
  have hmade := at_path_place hb (b.set_bucket (as_bytes new_key) ∅)
  have hcreate : InTx.create_bucket bucket (as_bytes new_key) tx =
      some (bucket ++ [as_bytes new_key], tx.place bucket (b.set_bucket (as_bytes new_key) ∅)) := by
    conv_lhs => rw [← place_at_path hb]
    rw [InTx.create_bucket_place hb, create_bucket_of_free hnew]
    rfl
  have hsrc := at_path_concat hmade (as_bytes old_key)
  rw [get_bucket_set_ne hkey, hold] at hsrc
  have hdst := at_path_concat hmade (as_bytes new_key)
  rw [get_bucket_set] at hdst
  have hcopy := copy_in_tx hsrc hdst (apart_concat hkey.symm bucket) hfuel
  rw [copy_eq, Option.map_some, place_concat hmade (get_bucket_set ..), set_set_bucket,
    place_place hb] at hcopy
  have hgone : (b.set_bucket (as_bytes new_key) c).delete_bucket (as_bytes old_key) =
      some ((b.set_bucket (as_bytes new_key) c).unbind (as_bytes old_key)) := by
    apply delete_bucket_of_data
    rw [get_set_bucket, if_neg hkey, get_bucket_eq_some.mp hold]
  rw [handles.rename_bucket, InTx.bind_of_some hcreate,
    InTx.bind_of_some (InTx.get_bucket_eq hsrc), InTx.bind_of_some hcopy, InTx.delete_bucket,
    InTx.modify_place hb, hgone, rename_key_bucket hold hne hnew]

theorem movesKey_bucket {c : Tree} (hold : b.get_bucket (as_bytes old_key) = some c)
    (hne : old_key ≠ new_key) (hnew : b.get (as_bytes new_key) = none) :
    MovesKey b ((b.set_bucket (as_bytes new_key) c).unbind (as_bytes old_key)) old_key
      new_key := by
  have hdata := get_bucket_eq_some.mp hold
  have hkey : as_bytes new_key ≠ as_bytes old_key := fun e => hne (as_bytes_injective e).symm
  rw [MovesKey, if_pos ⟨by rw [hdata]; rfl, hnew, hne⟩]
  refine ⟨?_, ?_, fun k hk hk' => ?_⟩
  · rw [get_unbind, if_neg hkey, get_set_bucket, if_pos rfl, hdata]
  · rw [get_unbind, if_pos rfl]
  · rw [get_unbind, if_neg hk, get_set_bucket, if_neg hk']

end rename

theorem execute_rename (b : Tree) (old_key new_key : String) :
    execute_operate_real [.RenameKey old_key new_key] b =
      (rename_key old_key new_key b).map (·, []) := by
  simp only [execute_operate_real, operate]
  rcases rename_key old_key new_key b with _ | b' <;> rfl

/-- The moves are right unless a value is to get a new key that is free: it then stands under both
keys. -/
theorem renames_key_iff (b : Tree) (old_key new_key : String) :
    (∃ b' written, execute_operate_real [.RenameKey old_key new_key] b = some (b', written) ∧
        MovesKey b b' old_key new_key) ↔
      b.get (as_bytes old_key) = none ∨ old_key = new_key ∨
        (b.get (as_bytes new_key)).isSome = true ∨
        (b.get_bucket (as_bytes old_key)).isSome = true := by
  rw [execute_rename]
  by_cases hskip : b.get (as_bytes old_key) = none ∨ old_key = new_key ∨
      (b.get (as_bytes new_key)).isSome = true
  · rw [rename_key_skips hskip]
    refine iff_of_true ⟨b, [], rfl, movesKey_of_skip hskip⟩ ?_
    rcases hskip with h | h | h
    · exact .inl h
    · exact .inr (.inl h)
    · exact .inr (.inr (.inl h))
  · simp only [not_or, Bool.not_eq_true, Option.isSome_eq_false_iff, Option.isNone_iff_eq_none]
      at hskip
    obtain ⟨hold, hne, hnew⟩ := hskip
    obtain ⟨value, hvalue⟩ := Option.ne_none_iff_exists'.mp hold
    cases value with
    | kv v =>
      rw [rename_key_value hvalue hne hnew]
      refine iff_of_false ?_ ?_
      · rintro ⟨b', written, hrun, hmove⟩
        cases hrun
        exact not_movesKey_value hvalue hne hnew hmove
      · simp only [hvalue, hne, hnew, Option.isSome_iff_exists, BucketTree.get_bucket_eq_some]
        simp [BucketTree.data]
    | bucket es =>
      obtain ⟨c, hc, _⟩ := BucketTree.exists_get_bucket hvalue
      rw [rename_key_bucket hc hne hnew]
      exact iff_of_true ⟨_, [], rfl, movesKey_bucket hc hne hnew⟩
        (.inr (.inr (.inr (by simp [hc]))))

section sample

/-- A bucket with the value 1 under `a`. -/
def one_key : Tree := (∅ : Tree).bind (as_bytes "a") (.kv [1]) (.kv [1])

/-- Afterwards the value is there under both keys. -/
theorem renamed_value_stays :
    ∃ b', execute_operate_real [.RenameKey "a" "b"] one_key = some (b', []) ∧
      b'.get (as_bytes "b") = some (.kv [1]) ∧ b'.get (as_bytes "a") = some (.kv [1]) ∧
      ¬ MovesKey one_key b' "a" "b" := by
  have hold : one_key.get (as_bytes "a") = some (.kv [1]) := rfl
  have hnew : one_key.get (as_bytes "b") = none := rfl
  refine ⟨one_key.bind (as_bytes "b") (.kv [1]) (.kv [1]), ?_, rfl, rfl,
    not_movesKey_value hold (by decide) hnew⟩
  rw [execute_rename, rename_key_value hold (by decide) hnew]
  rfl

end sample

end dbfs2
