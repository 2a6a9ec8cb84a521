-- Ordered finite maps: association lists with strictly increasing keys. The
-- order of the keys is the order in which a walk over the map meets them, so
-- one type serves look-ups, key ranges and listings.
import Mathlib.Data.List.Lex
import Mathlib.Order.Lattice
import Mathlib.Algebra.BigOperators.Group.List.Basic
import Mathlib.Algebra.Ring.Nat
import Mathlib.Tactic.Common

/-! ## Machine words are linearly ordered -/

instance instLinearOrderUInt8 : LinearOrder UInt8 where
  le_refl := UInt8.le_refl
  le_trans _ _ _ := UInt8.le_trans
  le_antisymm _ _ := UInt8.le_antisymm
  le_total := UInt8.le_total
  lt_iff_le_not_ge a b := by
    rw [UInt8.lt_iff_toNat_lt, UInt8.le_iff_toNat_le, UInt8.le_iff_toNat_le]
    omega
  toDecidableLE := inferInstance
  toDecidableLT := inferInstance
  toDecidableEq := inferInstance

instance instLinearOrderUInt64 : LinearOrder UInt64 where
  le_refl := UInt64.le_refl
  le_trans _ _ _ := UInt64.le_trans
  le_antisymm _ _ := UInt64.le_antisymm
  le_total := UInt64.le_total
  lt_iff_le_not_ge a b := by
    rw [UInt64.lt_iff_toNat_lt, UInt64.le_iff_toNat_le, UInt64.le_iff_toNat_le]
    omega
  toDecidableLE := inferInstance
  toDecidableLT := inferInstance
  toDecidableEq := inferInstance

/-! ## The map -/

/-- A finite map, as the list of its bindings in strictly increasing key order. -/
structure OrdMap (K V : Type) [LinearOrder K] where
  entries : List (K × V)
  sorted : entries.Pairwise (fun a b => a.1 < b.1)

namespace OrdMap

variable {K V : Type} [LinearOrder K]

instance [DecidableEq V] : DecidableEq (OrdMap K V) := fun a b =>
  decidable_of_iff (a.entries = b.entries)
    ⟨fun h => by cases a; cases b; cases h; rfl, fun h => by rw [h]⟩

def empty : OrdMap K V := ⟨[], List.Pairwise.nil⟩

instance : EmptyCollection (OrdMap K V) := ⟨empty⟩

instance : Inhabited (OrdMap K V) := ⟨empty⟩

/-- The value of the first binding of `k` in a list of bindings. -/
def lookup (k : K) : List (K × V) → Option V
  | [] => none
  | e :: es => if k = e.1 then some e.2 else lookup k es

theorem lookup_map {W : Type} (f : V → W) (k : K) (es : List (K × V)) :
    lookup k (es.map fun e => (e.1, f e.2)) = (lookup k es).map f := by
  induction es with
  | nil => rfl
  | cons e es ih =>
    rw [List.map_cons, lookup, lookup, ih]
    split_ifs <;> rfl

def find? (m : OrdMap K V) (k : K) : Option V := lookup k m.entries

/-- Puts a binding at its place in an increasing list, over an old one of the same key. -/
def insertEntry (k : K) (v : V) : List (K × V) → List (K × V)
  | [] => [(k, v)]
  | e :: es =>
    if k < e.1 then (k, v) :: e :: es
    else if k = e.1 then (k, v) :: es
    else e :: insertEntry k v es

theorem mem_insertEntry {k : K} {v : V} {x : K × V} {es : List (K × V)}
    (h : x ∈ insertEntry k v es) : x = (k, v) ∨ x ∈ es := by
  induction es with
  | nil => simpa [insertEntry] using h
  | cons e es ih =>
    unfold insertEntry at h
    split_ifs at h
    · simpa using h
    · rcases List.mem_cons.mp h with h | h
      · exact Or.inl h
      · exact Or.inr (List.mem_cons_of_mem _ h)
    · rcases List.mem_cons.mp h with h | h
      · exact Or.inr (h ▸ List.mem_cons_self)
      · exact (ih h).imp id (List.mem_cons_of_mem _)

theorem sorted_insertEntry (k : K) (v : V) {es : List (K × V)}
    (h : es.Pairwise (fun a b => a.1 < b.1)) :
    (insertEntry k v es).Pairwise (fun a b => a.1 < b.1) := by
  induction es with
  | nil => simp [insertEntry]
  | cons e es ih =>
    obtain ⟨hhd, htl⟩ := List.pairwise_cons.mp h
    unfold insertEntry
    split_ifs with hlt heq
    · refine List.pairwise_cons.mpr ⟨?_, h⟩
      intro x hx
      rcases List.mem_cons.mp hx with rfl | hx
      · exact hlt
      · exact lt_trans hlt (hhd x hx)
    · subst heq
      exact List.pairwise_cons.mpr ⟨hhd, htl⟩
    · refine List.pairwise_cons.mpr ⟨?_, ih htl⟩
      intro x hx
      rcases mem_insertEntry hx with rfl | hx
      · exact lt_of_le_of_ne (not_lt.mp hlt) (Ne.symm heq)
      · exact hhd x hx

def insert (m : OrdMap K V) (k : K) (v : V) : OrdMap K V :=
  ⟨insertEntry k v m.entries, sorted_insertEntry k v m.sorted⟩

def erase (m : OrdMap K V) (k : K) : OrdMap K V :=
  ⟨m.entries.filter (fun e => !decide (e.1 = k)), m.sorted.filter _⟩

/-- The bindings with `lo ≤ key < hi`, in key order. -/
def range (m : OrdMap K V) (lo hi : K) : List (K × V) :=
  m.entries.filter (fun e => decide (lo ≤ e.1) && decide (e.1 < hi))

/-- The bindings from `k` on, in key order. -/
def entriesFrom (m : OrdMap K V) (k : K) : List (K × V) :=
  m.entries.filter (fun e => decide (k ≤ e.1))

/-- The bindings after `k`, in key order. -/
def entriesAfter (m : OrdMap K V) (k : K) : List (K × V) :=
  m.entries.filter (fun e => decide (k < e.1))

/-! ## Look-ups -/

theorem lookup_insertEntry (k k' : K) (v : V) {es : List (K × V)}
    (h : es.Pairwise (fun a b => a.1 < b.1)) :
    lookup k' (insertEntry k v es) = if k' = k then some v else lookup k' es := by
  induction es with
  | nil => simp [insertEntry, lookup]
  | cons e es ih =>
    obtain ⟨_, htl⟩ := List.pairwise_cons.mp h
    unfold insertEntry
    by_cases hlt : k < e.1
    · simp [hlt, lookup]
    · by_cases heq : k = e.1
      · subst heq
        simp only [lt_irrefl, if_false, if_true, lookup]
        split_ifs <;> rfl
      · simp only [if_neg hlt, if_neg heq, lookup, ih htl]
        split_ifs with h1 h2
        · exact absurd (h2.symm.trans h1) heq
        · rfl
        · rfl
        · rfl

@[simp]
theorem find?_empty (k : K) : (∅ : OrdMap K V).find? k = none := rfl

theorem find?_insert (m : OrdMap K V) (k k' : K) (v : V) :
    (m.insert k v).find? k' = if k' = k then some v else m.find? k' :=
  lookup_insertEntry k k' v m.sorted

@[simp]
theorem find?_insert_self (m : OrdMap K V) (k : K) (v : V) : (m.insert k v).find? k = some v := by
  simp [find?_insert]

theorem find?_erase (m : OrdMap K V) (k k' : K) :
    (m.erase k).find? k' = if k' = k then none else m.find? k' := by
  unfold find? erase
  simp only
  induction m.entries with
  | nil => simp [lookup]
  | cons e es ih =>
    by_cases he : e.1 = k
    · simp only [he, List.filter_cons, decide_true, Bool.not_true, Bool.false_eq_true, if_false,
        ih, lookup]
      split_ifs <;> rfl
    · simp only [he, List.filter_cons, decide_false, Bool.not_false, if_true, lookup, ih]
      split_ifs with h1 h2
      · exact absurd (h1.symm.trans h2) he
      · rfl
      · rfl
      · rfl

@[simp]
theorem find?_erase_self (m : OrdMap K V) (k : K) : (m.erase k).find? k = none := by
  simp [find?_erase]

theorem lookup_eq_some_iff {k : K} {v : V} {es : List (K × V)}
    (h : es.Pairwise (fun a b => a.1 < b.1)) : lookup k es = some v ↔ (k, v) ∈ es := by
  induction es with
  | nil => simp [lookup]
  | cons e es ih =>
    obtain ⟨hhd, htl⟩ := List.pairwise_cons.mp h
    unfold lookup
    split_ifs with hk
    · subst hk
      constructor
      · intro hv
        cases hv
        exact List.mem_cons_self
      · intro hm
        rcases List.mem_cons.mp hm with hm | hm
        · rw [← hm]
        · exact absurd (hhd _ hm) (lt_irrefl _)
    · rw [ih htl, List.mem_cons]
      constructor
      · exact Or.inr
      · rintro (hm | hm)
        · exact absurd (congrArg Prod.fst hm) hk
        · exact hm

/-- A binding stands in the list of the map exactly when the map finds it. -/
theorem mem_entries {m : OrdMap K V} {k : K} {v : V} :
    (k, v) ∈ m.entries ↔ m.find? k = some v := (lookup_eq_some_iff m.sorted).symm

/-! ## Maps with the same bindings are the same map -/

/-- Two lists with the same members in one strict order are the same list. -/
theorem eq_of_pairwise {α : Type} {r : α → α → Prop} (hr : ∀ a b, r a b → ¬ r b a)
    {as bs : List α} (ha : as.Pairwise r) (hb : bs.Pairwise r) (h : ∀ x, x ∈ as ↔ x ∈ bs) :
    as = bs := by
  have hne : ∀ {a b}, r a b → a ≠ b := by
    rintro a b hab rfl
    exact hr a a hab hab
  have hperm := (List.perm_ext_iff_of_nodup (ha.imp hne) (hb.imp hne)).mpr h
  exact hperm.eq_of_pairwise (fun a b _ _ hab hba => absurd hba (hr a b hab)) ha hb

/-- Two strictly increasing lists with the same members are the same list. -/
theorem eq_of_mem_iff {as bs : List (K × V)} (ha : as.Pairwise (fun a b => a.1 < b.1))
    (hb : bs.Pairwise (fun a b => a.1 < b.1)) (h : ∀ x, x ∈ as ↔ x ∈ bs) : as = bs :=
  eq_of_pairwise (fun _ _ => lt_asymm) ha hb h

theorem ext_find? {m m' : OrdMap K V} (h : ∀ k, m.find? k = m'.find? k) : m = m' := by
  have he : m.entries = m'.entries := by
    apply eq_of_mem_iff m.sorted m'.sorted
    rintro ⟨k, v⟩
    rw [mem_entries, mem_entries, h k]
  cases m
  cases m'
  cases he
  rfl

/-! ## Ranges -/

theorem mem_range {m : OrdMap K V} {lo hi k : K} {v : V} :
    (k, v) ∈ m.range lo hi ↔ m.find? k = some v ∧ lo ≤ k ∧ k < hi := by
  simp [range, mem_entries]

theorem sorted_range (m : OrdMap K V) (lo hi : K) :
    (m.range lo hi).Pairwise (fun a b => a.1 < b.1) := m.sorted.filter _

theorem mem_entriesAfter {m : OrdMap K V} {k k' : K} {v : V} :
    (k', v) ∈ m.entriesAfter k ↔ m.find? k' = some v ∧ k < k' := by
  simp [entriesAfter, mem_entries]

/-- From a key that is there, the bindings are its own and those after it. -/
theorem entriesFrom_of_find? {m : OrdMap K V} {k : K} {v : V} (h : m.find? k = some v) :
    m.entriesFrom k = (k, v) :: m.entriesAfter k := by
  have hmem := mem_entries.mpr h
  have hsorted := m.sorted
  unfold entriesFrom entriesAfter
  generalize m.entries = es at hmem hsorted
  induction es with
  | nil => cases hmem
  | cons e es ih =>
    rw [List.pairwise_cons] at hsorted
    rcases List.mem_cons.mp hmem with rfl | hmem
    · have hle : ∀ x ∈ es, k ≤ x.1 := fun x hx => (hsorted.1 x hx).le
      have hlt : ∀ x ∈ es, k < x.1 := hsorted.1
      rw [List.filter_cons_of_pos (by simp), List.filter_cons_of_neg (by simp),
        List.filter_eq_self.mpr (by simpa using hle), List.filter_eq_self.mpr (by simpa using hlt)]
    · have hlt : e.1 < k := hsorted.1 _ hmem
      rw [List.filter_cons_of_neg (by simpa using hlt),
        List.filter_cons_of_neg (by simpa using hlt.le), ih hmem hsorted.2]

/-! ## Sums and counts -/

/-- The sum of a weight over the bindings. -/
def sum (m : OrdMap K V) (f : K → V → Nat) : Nat := (m.entries.map (fun e => f e.1 e.2)).sum

/-- The number of bindings with a property. -/
def count (m : OrdMap K V) (p : K → V → Bool) : Nat := m.entries.countP (fun e => p e.1 e.2)

end OrdMap
