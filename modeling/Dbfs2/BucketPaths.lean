-- Buckets by their paths. A transaction has one tree of buckets, and a program holds handles
-- on places in it: what it does through one handle may be seen through another. A bucket that
-- neither holds the changed one nor lies inside it stays as it is.
import Mathlib.Data.List.Infix
import Dbfs2.Buckets

namespace BucketTree

variable {K V : Type} [LinearOrder K]

/-! ## Places in a tree -/

/-- The bucket at the end of a path. -/
def at_path : BucketTree K V → List K → Option (BucketTree K V)
  | b, [] => some b
  | b, k :: path => (b.get_bucket k).bind fun c => c.at_path path

/-- The tree with another bucket at the end of a path. -/
def place : BucketTree K V → List K → BucketTree K V → BucketTree K V
  | _, [], c => c
  | b, k :: path, c =>
    match b.get_bucket k with
    | none => b
    | some d => b.set_bucket k (d.place path c)

/-- Neither path goes through the other. -/
def Apart (p q : List K) : Prop := ¬ p <+: q ∧ ¬ q <+: p

section paths

variable {b c d e : BucketTree K V} {k : K} {p q : List K}

@[simp]
theorem at_path_nil (b : BucketTree K V) : b.at_path [] = some b := rfl

theorem at_path_cons : b.at_path (k :: p) = some d ↔
    ∃ c, b.get_bucket k = some c ∧ c.at_path p = some d := by
  rw [at_path, Option.bind_eq_some_iff]

theorem at_path_append (b : BucketTree K V) (p q : List K) :
    b.at_path (p ++ q) = (b.at_path p).bind (·.at_path q) := by
  induction p generalizing b with
  | nil => rfl
  | cons k p ih =>
    rw [List.cons_append, at_path, at_path]
    rcases b.get_bucket k with _ | c
    · rfl
    · exact ih c

/-- One step on from a bucket. -/
theorem at_path_concat (h : b.at_path p = some c) (k : K) :
    b.at_path (p ++ [k]) = c.get_bucket k := by
  rw [at_path_append, h, Option.bind_some, at_path]
  exact Option.bind_fun_some _

theorem place_cons (h : b.get_bucket k = some c) (p : List K) (d : BucketTree K V) :
    b.place (k :: p) d = b.set_bucket k (c.place p d) := by
  rw [place, h]

theorem get_bucket_set_ne {k' : K} (h : k' ≠ k) :
    (b.set_bucket k c).get_bucket k' = b.get_bucket k' := by
  ext d
  rw [get_bucket_eq_some, get_bucket_eq_some, get_set_bucket, if_neg h]

theorem set_get_bucket (h : b.get_bucket k = some c) : b.set_bucket k c = b := by
  apply ext_get
  intro k'
  rw [get_set_bucket]
  split_ifs with hk
  · rw [hk, get_bucket_eq_some.mp h]
  · rfl

/-- What has been placed is found. -/
theorem at_path_place (h : b.at_path p = some c) (d : BucketTree K V) :
    (b.place p d).at_path p = some d := by
  induction p generalizing b with
  | nil => rfl
  | cons k p ih =>
    obtain ⟨b₁, hb₁, hc⟩ := at_path_cons.mp h
    rw [place_cons hb₁, at_path, get_bucket_set]
    exact ih hc

/-- What is there already changes nothing. -/
theorem place_at_path (h : b.at_path p = some c) : b.place p c = b := by
  induction p generalizing b with
  | nil => exact (Option.some.inj h).symm
  | cons k p ih =>
    obtain ⟨b₁, hb₁, hc⟩ := at_path_cons.mp h
    rw [place_cons hb₁, ih hc, set_get_bucket hb₁]

theorem place_place (h : b.at_path p = some c) (d e : BucketTree K V) :
    (b.place p d).place p e = b.place p e := by
  induction p generalizing b with
  | nil => rfl
  | cons k p ih =>
    obtain ⟨b₁, hb₁, hc⟩ := at_path_cons.mp h
    rw [place_cons hb₁, place_cons hb₁, place_cons (get_bucket_set ..), set_set_bucket, ih hc]

/-- A bucket is placed in the one that holds it. -/
theorem place_concat (h : b.at_path p = some c) (hk : c.get_bucket k = some d)
    (e : BucketTree K V) : b.place (p ++ [k]) e = b.place p (c.set_bucket k e) := by
  induction p generalizing b with
  | nil =>
    cases h
    exact place_cons hk [] e
  | cons k' p ih =>
    obtain ⟨b₁, hb₁, hc⟩ := at_path_cons.mp h
    rw [List.cons_append, place_cons hb₁, place_cons hb₁, ih hc]

theorem at_path_place_apart (hapart : Apart p q) (d : BucketTree K V) :
    (b.place p d).at_path q = b.at_path q := by
  obtain ⟨hpq, hqp⟩ := hapart
  induction p generalizing b q with
  | nil => exact absurd List.nil_prefix hpq
  | cons k p ih =>
    cases q with
    | nil => exact absurd List.nil_prefix hqp
    | cons k' q =>
      rw [place]
      rcases hb : b.get_bucket k with _ | b₁
      · rfl
      rw [at_path, at_path]
      by_cases hk : k' = k
      · subst hk
        rw [get_bucket_set, hb]
        exact ih (fun h => hpq (List.cons_prefix_cons.mpr ⟨rfl, h⟩))
          fun h => hqp (List.cons_prefix_cons.mpr ⟨rfl, h⟩)
      · rw [get_bucket_set_ne hk]

omit [LinearOrder K] in
theorem Apart.symm (h : Apart p q) : Apart q p := ⟨h.2, h.1⟩

omit [LinearOrder K] in
/-- Buckets inside buckets that are apart are apart. -/
theorem Apart.concat (h : Apart p q) (k : K) : Apart (p ++ [k]) (q ++ [k]) := by
  have hnot : ∀ {p q : List K}, Apart p q → ¬ p ++ [k] <+: q ++ [k] := by
    intro p q h hpre
    have hp : p <+: q ++ [k] := (List.prefix_append p [k]).trans hpre
    rcases List.prefix_concat_iff.mp hp with rfl | hp
    · exact h.2 (List.prefix_append q [k])
    · exact h.1 hp
  exact ⟨hnot h, hnot h.symm⟩

omit [LinearOrder K] in
/-- Two buckets in one are apart. -/
theorem apart_concat {k' : K} (h : k ≠ k') (p : List K) : Apart (p ++ [k]) (p ++ [k']) := by
  have hnot : ∀ {k k' : K}, k ≠ k' → ¬ p ++ [k] <+: p ++ [k'] := by
    intro k k' h hpre
    have := hpre.eq_of_length (by simp)
    simp [h] at this
  exact ⟨hnot h, hnot h.symm⟩

/-- An empty bucket has nothing inside it. -/
theorem apart_of_empty (hold : b.at_path p = some c) (hnew : b.at_path q = some ∅)
    (h : ¬ p <+: q) : Apart p q := by
  refine ⟨h, ?_⟩
  rintro ⟨r, rfl⟩
  rw [at_path_append, hnew, Option.bind_some] at hold
  cases r with
  | nil => exact h (by rw [List.append_nil])
  | cons k r =>
    obtain ⟨c, hc, _⟩ := at_path_cons.mp hold
    rw [get_bucket_eq_some, get_empty] at hc
    cases hc

/-- A bucket is larger than all inside it. -/
theorem size_at_path (h : b.at_path (k :: p) = some c) : c.size < b.size := by
  induction p generalizing b k with
  | nil =>
    obtain ⟨d, hd, hc⟩ := at_path_cons.mp h
    cases hc
    exact size_get_bucket hd
  | cons k' p ih =>
    obtain ⟨d, hd, hc⟩ := at_path_cons.mp h
    exact (ih hc).trans (size_get_bucket hd)

end paths

/-! ## Handles -/

/-- What runs in a transaction; `none` is a failure. A handle is the path of its bucket. -/
abbrev InTx (K V : Type) [LinearOrder K] (α : Type) := StateT (BucketTree K V) Option α

namespace InTx

variable {α β : Type}

/-- Runs an operation on the bucket of a handle. -/
def modify (bucket : List K) (f : BucketTree K V → Option (BucketTree K V)) : InTx K V Unit :=
  fun tx => (tx.at_path bucket).bind fun b => (f b).map fun c => ((), tx.place bucket c)

/-- What a cursor on the bucket meets. -/
def cursor (bucket : List K) : InTx K V (List (K × BucketData K V)) :=
  fun tx => (tx.at_path bucket).map fun b => (b.entries, tx)

def put (bucket : List K) (k : K) (v : V) : InTx K V Unit := modify bucket (·.put k v)

def create_bucket (bucket : List K) (k : K) : InTx K V (List K) := do
  modify bucket (·.create_bucket k)
  pure (bucket ++ [k])

def get_bucket (bucket : List K) (k : K) : InTx K V (List K) :=
  fun tx => (tx.at_path (bucket ++ [k])).map fun _ => (bucket ++ [k], tx)

def delete_bucket (bucket : List K) (k : K) : InTx K V Unit := modify bucket (·.delete_bucket k)

variable {tx tx' b c : BucketTree K V} {p : List K} {k : K}

theorem bind_eq (x : InTx K V α) (g : α → InTx K V β) (tx : BucketTree K V) :
    (x >>= g) tx = (x tx).bind fun r => g r.1 r.2 := rfl

theorem bind_of_some {x : InTx K V α} {a : α} (h : x tx = some (a, tx')) (g : α → InTx K V β) :
    (x >>= g) tx = g a tx' := by
  rw [bind_eq, h]
  rfl

theorem modify_eq (h : tx.at_path p = some b) (f : BucketTree K V → Option (BucketTree K V)) :
    modify p f tx = (f b).map fun c => ((), tx.place p c) := by
  rw [modify, h]
  rfl

/-- Changes of a bucket that has been changed count from there. -/
theorem modify_place (h : tx.at_path p = some b) (f : BucketTree K V → Option (BucketTree K V))
    (c : BucketTree K V) :
    modify p f (tx.place p c) = (f c).map fun d => ((), tx.place p d) := by
  rw [modify_eq (at_path_place h c)]
  simp only [place_place h]

theorem create_bucket_place (h : tx.at_path p = some b) (k : K) (c : BucketTree K V) :
    create_bucket p k (tx.place p c) =
      (c.create_bucket k).map fun d => (p ++ [k], tx.place p d) := by
  rw [create_bucket, bind_eq, modify_place h]
  rcases c.create_bucket k with _ | d <;> rfl

theorem cursor_eq (h : tx.at_path p = some b) : cursor p tx = some (b.entries, tx) := by
  rw [cursor, h]
  rfl

theorem get_bucket_eq (h : tx.at_path (p ++ [k]) = some b) :
    get_bucket p k tx = some (p ++ [k], tx) := by
  rw [get_bucket, h]
  rfl

/-- A loop over a handle, each turn of which does to its bucket what `f` says, does what the fold
of `f` says. -/
theorem forM_eq {es : List α} {turn : α → InTx K V Unit}
    {f : BucketTree K V → α → Option (BucketTree K V)}
    (hturn : ∀ a ∈ es, ∀ b, turn a (tx.place p b) = (f b a).map fun c => ((), tx.place p c))
    (b : BucketTree K V) :
    es.forM turn (tx.place p b) = (es.foldlM f b).map fun c => ((), tx.place p c) := by
  induction es generalizing b with
  | nil => rfl
  | cons a es ih =>
    rw [List.foldlM_cons]
    change (turn a >>= fun _ => es.forM turn) (tx.place p b) = _
    rw [bind_eq, hturn a List.mem_cons_self]
    rcases f b a with _ | c
    · rfl
    · exact ih (fun a' ha' => hturn a' (List.mem_cons_of_mem _ ha')) c

end InTx

end BucketTree
