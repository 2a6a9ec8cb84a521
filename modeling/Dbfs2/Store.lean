-- A store of named buckets, each bucket an ordered map of its own. Two buckets
-- opened under one name are the same bucket, so the laws speak of a name and a
-- key: what stands there, and what one change leaves alone.
import Dbfs2.OrdMap
import Mathlib.Data.Set.Card

/-- Named buckets. -/
abbrev Store (N K V : Type) [LinearOrder N] [LinearOrder K] := OrdMap N (OrdMap K V)

namespace Store

variable {N K V : Type} [LinearOrder N] [LinearOrder K]

/-- There is a bucket of this name. -/
def Has (s : Store N K V) (n : N) : Prop := (OrdMap.find? s n).isSome

instance (s : Store N K V) (n : N) : Decidable (Has s n) :=
  inferInstanceAs (Decidable (_ = true))

/-- The value under a key of a bucket. -/
def get (s : Store N K V) (n : N) (k : K) : Option V := (OrdMap.find? s n).bind (·.find? k)

/-- Changes the bucket of one name, if there is one. -/
def modify (s : Store N K V) (n : N) (f : OrdMap K V → OrdMap K V) : Store N K V :=
  match OrdMap.find? s n with
  | some b => OrdMap.insert s n (f b)
  | none => s

def put (s : Store N K V) (n : N) (k : K) (v : V) : Store N K V := modify s n (·.insert k v)

def delete (s : Store N K V) (n : N) (k : K) : Store N K V := modify s n (·.erase k)

/-- A new empty bucket. -/
def create (s : Store N K V) (n : N) : Store N K V := OrdMap.insert s n ∅

/-- The store without the bucket of one name. -/
def drop (s : Store N K V) (n : N) : Store N K V := OrdMap.erase s n

theorem has_iff {s : Store N K V} {n : N} : Has s n ↔ ∃ b, OrdMap.find? s n = some b := by
  unfold Has
  exact Option.isSome_iff_exists

theorem get_eq_some {s : Store N K V} {n : N} {k : K} {v : V} :
    get s n k = some v ↔ ∃ b, OrdMap.find? s n = some b ∧ b.find? k = some v := by
  unfold get
  exact Option.bind_eq_some_iff

theorem has_of_get {s : Store N K V} {n : N} {k : K} {v : V} (h : get s n k = some v) :
    Has s n := by
  obtain ⟨b, hb, _⟩ := get_eq_some.mp h
  exact has_iff.mpr ⟨b, hb⟩

theorem get_of_not_has {s : Store N K V} {n : N} (h : ¬ Has s n) (k : K) : get s n k = none := by
  rcases hg : get s n k with _ | v
  · rfl
  · exact absurd (has_of_get hg) h

/-! ## One change to one bucket -/

theorem find?_modify (s : Store N K V) (n n' : N) (f : OrdMap K V → OrdMap K V) :
    OrdMap.find? (modify s n f) n' =
      if n' = n then (OrdMap.find? s n).map f else OrdMap.find? s n' := by
  unfold modify
  rcases hb : OrdMap.find? s n with _ | b
  · simp only [Option.map_none]
    split_ifs with h
    · rw [h, hb]
    · rfl
  · simp only [OrdMap.find?_insert, Option.map_some]

@[simp]
theorem has_modify (s : Store N K V) (n n' : N) (f : OrdMap K V → OrdMap K V) :
    Has (modify s n f) n' ↔ Has s n' := by
  unfold Has
  rw [find?_modify]
  split_ifs with h
  · rw [h, Option.isSome_map]
  · rfl

@[simp]
theorem has_put (s : Store N K V) (n n' : N) (k : K) (v : V) :
    Has (put s n k v) n' ↔ Has s n' := has_modify _ _ _ _

@[simp]
theorem has_delete (s : Store N K V) (n n' : N) (k : K) :
    Has (delete s n k) n' ↔ Has s n' := has_modify _ _ _ _

theorem get_put (s : Store N K V) (n n' : N) (k k' : K) (v : V) :
    get (put s n k v) n' k' =
      if n' = n ∧ k' = k ∧ Has s n then some v else get s n' k' := by
  unfold get put
  rw [find?_modify]
  by_cases hn : n' = n
  · subst hn
    rcases hb : OrdMap.find? s n' with _ | b
    · simp [Has, hb]
    · by_cases hk : k' = k <;> simp [Has, hb, hk, OrdMap.find?_insert]
  · simp [hn]

theorem get_delete (s : Store N K V) (n n' : N) (k k' : K) :
    get (delete s n k) n' k' = if n' = n ∧ k' = k then none else get s n' k' := by
  unfold get delete
  rw [find?_modify]
  by_cases hn : n' = n
  · subst hn
    rcases hb : OrdMap.find? s n' with _ | b
    · simp
    · by_cases hk : k' = k <;> simp [hk, OrdMap.find?_erase]
  · simp [hn]

@[simp]
theorem has_create (s : Store N K V) (n n' : N) :
    Has (create s n) n' ↔ n' = n ∨ Has s n' := by
  unfold Has create
  rw [OrdMap.find?_insert]
  split_ifs with h <;> simp [h]

theorem get_create (s : Store N K V) (n n' : N) (k : K) :
    get (create s n) n' k = if n' = n then none else get s n' k := by
  unfold get create
  rw [OrdMap.find?_insert]
  split_ifs with h <;> simp

@[simp]
theorem has_drop (s : Store N K V) (n n' : N) : Has (drop s n) n' ↔ n' ≠ n ∧ Has s n' := by
  unfold Has drop
  rw [OrdMap.find?_erase]
  split_ifs with h <;> simp [h]

theorem get_drop (s : Store N K V) (n n' : N) (k : K) :
    get (drop s n) n' k = if n' = n then none else get s n' k := by
  unfold get drop
  rw [OrdMap.find?_erase]
  split_ifs with h <;> simp

/-! ## Counting bindings -/

/-- The bindings with a property in the bucket of one name. -/
def count (s : Store N K V) (p : K → V → Bool) (n : N) : Nat :=
  ((OrdMap.find? s n).map (·.count p)).getD 0

/-- The bindings with a property in all the buckets of a class. -/
def total (s : Store N K V) (c : OrdMap K V → Bool) (p : K → V → Bool) : Nat :=
  OrdMap.sum s (fun _ b => if c b then b.count p else 0)

/-- The keys of a map that `count` counts. -/
theorem ncard_count (b : OrdMap K V) (p : K → V → Bool) :
    {k | ∃ v, b.find? k = some v ∧ p k v}.ncard = b.count p := by
  have hmem : {k | ∃ v, b.find? k = some v ∧ p k v} =
      ↑((b.entries.filter (fun e => p e.1 e.2)).map Prod.fst).toFinset := by
    ext k
    simp [OrdMap.mem_entries]
  have hnodup : ((b.entries.filter (fun e => p e.1 e.2)).map Prod.fst).Nodup := by
    rw [List.Nodup, List.pairwise_map]
    exact (b.sorted.filter _).imp ne_of_lt
  rw [hmem, Set.ncard_coe_finset, List.toFinset_card_of_nodup hnodup, List.length_map,
    OrdMap.count, List.countP_eq_length_filter]

theorem count_eq_ncard (s : Store N K V) (p : K → V → Bool) (n : N) :
    count s p n = {k | ∃ v, get s n k = some v ∧ p k v}.ncard := by
  unfold count get
  rcases OrdMap.find? s n with _ | b
  · simp
  · simp only [Option.map_some, Option.getD_some, Option.bind_some, ncard_count]

theorem total_eq_ncard (s : Store N K V) (c : OrdMap K V → Bool) (p : K → V → Bool) :
    total s c p = {x : N × K | ∃ b v, OrdMap.find? s x.1 = some b ∧ c b ∧
      b.find? x.2 = some v ∧ p x.2 v}.ncard := by
  -- the places counted, bucket by bucket, are a list without repetition
  let place (e : N × OrdMap K V) : List (N × K) :=
    if c e.2 then (e.2.entries.filter (fun kv => p kv.1 kv.2)).map (fun kv => (e.1, kv.1)) else []
  have hplace : ∀ e x, x ∈ place e ↔
      x.1 = e.1 ∧ c e.2 ∧ ∃ v, e.2.find? x.2 = some v ∧ p x.2 v := by
    rintro ⟨n, b⟩ ⟨m, k⟩
    by_cases hc : c b = true
    · simp only [place, hc, if_true, List.mem_map, List.mem_filter, Prod.mk.injEq, Prod.exists,
        OrdMap.mem_entries, true_and]
      constructor
      · rintro ⟨k', v, hv, rfl, rfl⟩
        exact ⟨rfl, v, hv⟩
      · rintro ⟨rfl, v, hv⟩
        exact ⟨k, v, hv, rfl, rfl⟩
    · simp [place, hc]
  have hnodup : (s.entries.flatMap place).Nodup := by
    rw [List.nodup_flatMap]
    constructor
    · intro e _
      by_cases hc : c e.2 = true
      · simp only [place, hc, if_true]
        rw [List.Nodup, List.pairwise_map]
        exact (e.2.sorted.filter _).imp fun hlt heq => ne_of_lt hlt (Prod.mk.inj heq).2
      · simp [place, hc]
    · refine s.sorted.imp ?_
      intro e e' hlt x hx hx'
      have h1 := ((hplace e x).mp hx).1
      rw [((hplace e' x).mp hx').1] at h1
      exact ne_of_lt hlt h1.symm
  have hset : {x : N × K | ∃ b v, OrdMap.find? s x.1 = some b ∧ c b ∧
      b.find? x.2 = some v ∧ p x.2 v} = ↑(s.entries.flatMap place).toFinset := by
    ext ⟨n, k⟩
    simp only [Set.mem_ofPred_eq, List.coe_toFinset, List.mem_flatMap, hplace, Prod.exists,
      OrdMap.mem_entries]
    constructor
    · rintro ⟨b, v, hb, hc, hv⟩
      exact ⟨n, b, hb, rfl, hc, v, hv⟩
    · rintro ⟨n', b, hb, rfl, hc, v, hv⟩
      exact ⟨b, v, hb, hc, hv⟩
  rw [hset, Set.ncard_coe_finset, List.toFinset_card_of_nodup hnodup, List.length_flatMap]
  unfold total OrdMap.sum
  congr 1
  apply List.map_congr_left
  intro e _
  by_cases hc : c e.2 = true
  · simp [place, hc, OrdMap.count, List.countP_eq_length_filter]
  · simp [place, hc]

end Store
