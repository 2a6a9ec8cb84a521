-- Buckets inside buckets: ordered maps that hold under a key a value or a map of the same
-- kind, to any depth. The keys increase in all of them, so that two buckets with the same
-- bindings are the same bucket.
import Dbfs2.OrdMap

/-! ## Bindings -/

/-- What stands under a key: a value, or a bucket by the list of its bindings. -/
inductive BucketData (K V : Type) where
  | kv (value : V)
  | bucket (entries : List (K × BucketData K V))

/-- The keys increase in every bucket. -/
inductive BucketData.Ordered {K V : Type} [LT K] : BucketData K V → Prop
  | kv (value : V) : Ordered (.kv value)
  | bucket (entries : List (K × BucketData K V)) :
      entries.Pairwise (fun a b => a.1 < b.1) → (∀ e ∈ entries, e.2.Ordered) →
      Ordered (.bucket entries)

structure BucketTree (K V : Type) [LinearOrder K] extends OrdMap K (BucketData K V) where
  nested (e : K × BucketData K V) : e ∈ entries → e.2.Ordered

namespace BucketTree

variable {K V : Type} [LinearOrder K]

def empty : BucketTree K V := ⟨∅, fun _ h => nomatch h⟩

instance : EmptyCollection (BucketTree K V) := ⟨empty⟩

def get (b : BucketTree K V) (k : K) : Option (BucketData K V) := b.find? k

theorem ordered_of_get {b : BucketTree K V} {k : K} {d : BucketData K V} (h : b.get k = some d) :
    d.Ordered := b.nested (k, d) (OrdMap.mem_entries.mpr h)

/-- The bucket with another binding for a key. -/
def bind (b : BucketTree K V) (k : K) (d : BucketData K V) (hd : d.Ordered) : BucketTree K V where
  toOrdMap := b.insert k d
  nested e he := by
    rcases OrdMap.mem_insertEntry he with rfl | he
    · exact hd
    · exact b.nested e he

/-- The bucket without a key. -/
def unbind (b : BucketTree K V) (k : K) : BucketTree K V where
  toOrdMap := b.erase k
  nested e he := b.nested e (List.mem_of_mem_filter he)

@[simp]
theorem get_empty (k : K) : (∅ : BucketTree K V).get k = none := rfl

theorem get_bind (b : BucketTree K V) (k k' : K) (d : BucketData K V) (hd : d.Ordered) :
    (b.bind k d hd).get k' = if k' = k then some d else b.get k' := OrdMap.find?_insert ..

theorem get_unbind (b : BucketTree K V) (k k' : K) :
    (b.unbind k).get k' = if k' = k then none else b.get k' := OrdMap.find?_erase ..

theorem ext_get {b b' : BucketTree K V} (h : ∀ k, b.get k = b'.get k) : b = b' := by
  have hmap : b.toOrdMap = b'.toOrdMap := OrdMap.ext_find? h
  cases b
  cases b'
  cases hmap
  rfl

/-- A bucket as what stands under a key. -/
def data (b : BucketTree K V) : BucketData K V := .bucket b.entries

theorem data_ordered (b : BucketTree K V) : b.data.Ordered := .bucket _ b.sorted b.nested

theorem data_injective {b b' : BucketTree K V} (h : b.data = b'.data) : b = b' := by
  obtain ⟨⟨es, _⟩, _⟩ := b
  obtain ⟨⟨es', _⟩, _⟩ := b'
  cases h
  rfl

end BucketTree

/-- The bucket that stands under a key. -/
def BucketData.tree {K V : Type} [LinearOrder K] (d : BucketData K V) (h : d.Ordered) :
    Option (BucketTree K V) :=
  match d with
  | .kv _ => none
  | .bucket es => some
    { entries := es
      sorted := by cases h; assumption
      nested := by cases h; assumption }

theorem BucketData.tree_eq_some {K V : Type} [LinearOrder K] {d : BucketData K V} {h : d.Ordered}
    {c : BucketTree K V} : d.tree h = some c ↔ d = c.data := by
  cases d with
  | kv v => simp [tree, BucketTree.data]
  | bucket es =>
    rw [tree, Option.some_inj]
    constructor
    · rintro rfl
      rfl
    · intro hc
      exact BucketTree.data_injective hc

/-! ## Operations -/

namespace BucketTree

variable {K V : Type} [LinearOrder K]

/-- A value is not put over a bucket. -/
def put (b : BucketTree K V) (k : K) (v : V) : Option (BucketTree K V) :=
  match b.get k with
  | some (.bucket _) => none
  | _ => some (b.bind k (.kv v) (.kv v))

def get_kv (b : BucketTree K V) (k : K) : Option V :=
  match b.get k with
  | some (.kv v) => some v
  | _ => none

/-- A map as a bucket of values. -/
def leaf (m : OrdMap K V) : BucketTree K V where
  entries := m.entries.map fun e => (e.1, .kv e.2)
  sorted := List.pairwise_map.mpr m.sorted
  nested e he := by
    obtain ⟨e', _, rfl⟩ := List.mem_map.mp he
    exact .kv _

theorem get_kv_leaf (m : OrdMap K V) (k : K) : (leaf m).get_kv k = m.find? k := by
  have hget : (leaf m).get k = (m.find? k).map .kv := OrdMap.lookup_map _ k m.entries
  rw [get_kv, hget]
  rcases m.find? k with _ | v <;> rfl

def delete (b : BucketTree K V) (k : K) : Option (BucketTree K V) :=
  match b.get k with
  | some (.kv _) => some (b.unbind k)
  | _ => none

def get_bucket (b : BucketTree K V) (k : K) : Option (BucketTree K V) :=
  match h : b.get k with
  | none => none
  | some d => d.tree (ordered_of_get h)

/-- What is done to a bucket is done in the one that holds it. -/
def set_bucket (b : BucketTree K V) (k : K) (c : BucketTree K V) : BucketTree K V :=
  b.bind k c.data c.data_ordered

/-- The bucket with a new empty one under a key that is free. -/
def create_bucket (b : BucketTree K V) (k : K) : Option (BucketTree K V) :=
  match b.get k with
  | none => some (b.set_bucket k ∅)
  | some _ => none

def delete_bucket (b : BucketTree K V) (k : K) : Option (BucketTree K V) :=
  match b.get k with
  | some (.bucket _) => some (b.unbind k)
  | _ => none

theorem get_bucket_eq_some {b c : BucketTree K V} {k : K} :
    b.get_bucket k = some c ↔ b.get k = some c.data := by
  unfold get_bucket
  split
  · rename_i h
    simp [h]
  · rename_i d h
    rw [BucketData.tree_eq_some]
    constructor
    · rintro rfl
      exact h
    · intro hc
      exact Option.some.inj (h.symm.trans hc)

theorem get_set_bucket (b c : BucketTree K V) (k k' : K) :
    (b.set_bucket k c).get k' = if k' = k then some c.data else b.get k' := get_bind ..

@[simp]
theorem get_bucket_set (b c : BucketTree K V) (k : K) :
    (b.set_bucket k c).get_bucket k = some c := by
  rw [get_bucket_eq_some, get_set_bucket, if_pos rfl]

@[simp]
theorem set_set_bucket (b c d : BucketTree K V) (k : K) :
    (b.set_bucket k c).set_bucket k d = b.set_bucket k d := by
  apply ext_get
  intro k'
  simp only [get_set_bucket]
  split_ifs <;> rfl

/-- What is no value is a bucket. -/
theorem exists_get_bucket {b : BucketTree K V} {k : K} {es : List (K × BucketData K V)}
    (h : b.get k = some (.bucket es)) :
    ∃ c, b.get_bucket k = some c ∧ c.data = .bucket es := by
  cases ordered_of_get h with
  | bucket _ hsorted hnested =>
    exact ⟨⟨⟨es, hsorted⟩, hnested⟩, get_bucket_eq_some.mpr h, rfl⟩

theorem put_of_free {b : BucketTree K V} {k : K} (h : b.get k = none) (v : V) :
    b.put k v = some (b.bind k (.kv v) (.kv v)) := by
  rw [put, h]

theorem create_bucket_of_free {b : BucketTree K V} {k : K} (h : b.get k = none) :
    b.create_bucket k = some (b.set_bucket k ∅) := by
  rw [create_bucket, h]

/-- A bucket is made empty. -/
theorem get_bucket_of_create {b c : BucketTree K V} {k : K} (h : b.create_bucket k = some c) :
    c.get_bucket k = some ∅ := by
  unfold create_bucket at h
  split at h
  · cases h
    exact get_bucket_set b ∅ k
  · cases h

theorem delete_bucket_of_data {b c : BucketTree K V} {k : K} (h : b.get k = some c.data) :
    b.delete_bucket k = some (b.unbind k) := by
  rw [delete_bucket, h]
  rfl

/-- A measure for walks that go into the buckets they meet. -/
noncomputable def size (b : BucketTree K V) : Nat := sizeOf b.entries

/-- A bucket is smaller than the one that holds it. -/
theorem size_get_bucket {b c : BucketTree K V} {k : K} (h : b.get_bucket k = some c) :
    c.size < b.size := by
  have hmem := OrdMap.mem_entries.mpr (get_bucket_eq_some.mp h)
  have hlt := List.sizeOf_lt_of_mem hmem
  simp only [data, Prod.mk.sizeOf_spec, BucketData.bucket.sizeOf_spec] at hlt
  unfold size
  omega

/-! ## Walks -/

/-- A walk over bindings of distinct keys that puts each under its key into a bucket in which
the key is free. -/
theorem foldlM_binds {step : BucketTree K V → K × BucketData K V → Option (BucketTree K V)}
    {es : List (K × BucketData K V)} {b : BucketTree K V}
    (hstep : ∀ e ∈ es, ∀ c : BucketTree K V, c.get e.1 = none →
      ∃ hd, step c e = some (c.bind e.1 e.2 hd))
    (hes : es.Pairwise (fun a b => a.1 < b.1)) (hfree : ∀ e ∈ es, b.get e.1 = none) :
    ∃ b', es.foldlM step b = some b' ∧ ∀ k, b'.get k = (OrdMap.lookup k es).or (b.get k) := by
  induction es generalizing b with
  | nil => exact ⟨b, rfl, fun _ => rfl⟩
  | cons e es ih =>
    obtain ⟨hhd, htl⟩ := List.pairwise_cons.mp hes
    obtain ⟨hd, he⟩ := hstep e List.mem_cons_self b (hfree e List.mem_cons_self)
    have hfree' : ∀ x ∈ es, (b.bind e.1 e.2 hd).get x.1 = none := by
      intro x hx
      rw [get_bind, if_neg (hhd x hx).ne']
      exact hfree x (List.mem_cons_of_mem _ hx)
    obtain ⟨b', hfold, hget⟩ := ih (fun x hx => hstep x (List.mem_cons_of_mem _ hx)) htl hfree'
    refine ⟨b', by rw [List.foldlM_cons, he]; exact hfold, fun k => ?_⟩
    rw [hget, get_bind, OrdMap.lookup]
    by_cases hk : k = e.1
    · have hnone : OrdMap.lookup k es = none := by
        rcases hv : OrdMap.lookup k es with _ | v
        · rfl
        · have hmem := (OrdMap.lookup_eq_some_iff htl).mp hv
          exact absurd (hhd _ hmem) (by simp [hk])
      rw [if_pos hk, if_pos hk, hnone]
      rfl
    · rw [if_neg hk, if_neg hk]

/-- So such a walk over a bucket, into a new one, builds the bucket again. -/
theorem foldlM_rebuilds {step : BucketTree K V → K × BucketData K V → Option (BucketTree K V)}
    {b : BucketTree K V}
    (hstep : ∀ e ∈ b.entries, ∀ c : BucketTree K V, c.get e.1 = none →
      ∃ hd, step c e = some (c.bind e.1 e.2 hd)) :
    b.entries.foldlM step ∅ = some b := by
  obtain ⟨b', hfold, hget⟩ := foldlM_binds hstep b.sorted fun e _ => get_empty e.1
  have hsame : b' = b := ext_get fun k => by
    rw [hget, get_empty, Option.or_none]
    rfl
  rw [hfold, hsame]

end BucketTree
