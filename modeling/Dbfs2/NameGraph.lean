-- Graphs of names: nodes, some of them directories, and the entries of the
-- directories. Every directory has an entry for itself and, but for the root, one
-- for its parent; the other entries are the names proper.
import Mathlib.Data.Set.Card
import Mathlib.Tactic.SplitIfs

@[ext]
structure NameGraph (I K : Type) where
  node : Set I
  dir : Set I
  edge : I → K → Option I

namespace NameGraph

variable {I K : Type}

/-- The names that directory `n` holds. -/
def keys (g : NameGraph I K) (n : I) : Set K := {k | g.edge n k ≠ none}

/-- The places of the entries that refer to `i`. -/
def links (g : NameGraph I K) (i : I) : Set (I × K) := {p | g.edge p.1 p.2 = some i}

noncomputable def size (g : NameGraph I K) (n : I) : Nat := (g.keys n).ncard

noncomputable def refs (g : NameGraph I K) (i : I) : Nat := (g.links i).ncard

/-- There are finitely many entries in all. -/
def Finite (g : NameGraph I K) : Prop := {p : I × K | g.edge p.1 p.2 ≠ none}.Finite

/-! ## Counting -/

theorem Finite.keys {g : NameGraph I K} (h : g.Finite) (n : I) : (g.keys n).Finite := by
  refine (h.image Prod.snd).subset ?_
  intro k hk
  exact ⟨(n, k), hk, rfl⟩

theorem Finite.links {g : NameGraph I K} (h : g.Finite) (i : I) : (g.links i).Finite := by
  refine h.subset ?_
  intro p hp
  change g.edge p.1 p.2 ≠ none
  rw [show g.edge p.1 p.2 = some i from hp]
  simp

theorem refs_eq_zero {g : NameGraph I K} {i : I} (h : ∀ n k, g.edge n k ≠ some i) :
    g.refs i = 0 := by
  have : g.links i = ∅ := Set.eq_empty_of_forall_notMem fun p hp => h p.1 p.2 hp
  rw [refs, this, Set.ncard_empty]

/-- The only entry for a node that is counted once. -/
theorem eq_of_refs_eq_one {g : NameGraph I K} {i n a : I} {k b : K}
    (h1 : g.refs i = 1) (h : g.edge n k = some i) (h' : g.edge a b = some i) :
    a = n ∧ b = k := by
  obtain ⟨p, hp⟩ := Set.ncard_eq_one.mp h1
  have hn : (n, k) ∈ g.links i := h
  have ha : (a, b) ∈ g.links i := h'
  rw [hp, Set.mem_singleton_iff] at hn ha
  rw [← hn, Prod.mk.injEq] at ha
  exact ha

/-- A directory of at most two entries that has these two has no third. -/
theorem edge_of_size_le_two {g : NameGraph I K} (hf : g.Finite) {n : I} {a b k : K}
    (hab : a ≠ b) (ha : g.edge n a ≠ none) (hb : g.edge n b ≠ none) (h2 : g.size n ≤ 2)
    (hk : g.edge n k ≠ none) : k = a ∨ k = b := by
  by_contra hne
  simp only [not_or] at hne
  have hsub : ({k, a, b} : Set K) ⊆ g.keys n := by
    rintro x (rfl | rfl | rfl)
    · exact hk
    · exact ha
    · exact hb
  have hle := Set.ncard_le_ncard hsub (hf.keys n)
  have hthree : ({k, a, b} : Set K).ncard = 3 := Set.ncard_eq_three.mpr
    ⟨k, a, b, hne.1, hne.2, hab, rfl⟩
  unfold size at h2
  omega

/-- A finite set with one element decided anew. -/
theorem ncard_decide {α : Type} {s t : Set α} (hs : s.Finite) (a : α)
    [Decidable (a ∈ s)] [Decidable (a ∈ t)] (h : ∀ x, x ≠ a → (x ∈ t ↔ x ∈ s)) :
    t.ncard + (if a ∈ s then 1 else 0) = s.ncard + (if a ∈ t then 1 else 0) := by
  have hrest : t \ {a} = s \ {a} := by
    ext x
    simp only [Set.mem_sdiff, Set.mem_singleton_iff]
    constructor
    · rintro ⟨hx, hxa⟩
      exact ⟨(h x hxa).mp hx, hxa⟩
    · rintro ⟨hx, hxa⟩
      exact ⟨(h x hxa).mpr hx, hxa⟩
  have ht : t.Finite := by
    refine ((hs.sdiff (t := {a})).insert a).subset ?_
    rw [← hrest]
    intro x hx
    by_cases hxa : x = a
    · exact Or.inl hxa
    · exact Or.inr ⟨hx, hxa⟩
  have count : ∀ (u : Set α) [Decidable (a ∈ u)], u.Finite →
      (u \ {a}).ncard + (if a ∈ u then 1 else 0) = u.ncard := by
    intro u _ hu
    split_ifs with ha
    · exact Set.ncard_sdiff_singleton_add_one ha hu
    · rw [Set.sdiff_singleton_eq_self ha]
      rfl
  have h1 := count s hs
  have h2 := count t ht
  rw [hrest] at h2
  omega

/-! ## Well-formed graphs -/

/-- A name proper: neither the entry for the directory itself nor the one for its parent. -/
def Proper (dot dotdot k : K) : Prop := k ≠ dot ∧ k ≠ dotdot

/-- What the directories and their entries keep among themselves. A directory is named once,
in the directory that its own parent entry points back to. -/
structure WellFormed (dot dotdot : K) (root : I) (g : NameGraph I K) : Prop where
  finite : g.Finite
  dir_node {n : I} : n ∈ g.dir → n ∈ g.node
  edge_dir {n i : I} {k : K} : g.edge n k = some i → n ∈ g.dir
  root_dir : root ∈ g.dir
  root_top : g.edge root dotdot = none
  self {n : I} : n ∈ g.dir → g.edge n dot = some n
  parent {n : I} : n ∈ g.dir → n ≠ root →
    ∃ p k, g.edge n dotdot = some p ∧ Proper dot dotdot k ∧ g.edge p k = some n
  child {n i : I} {k : K} : Proper dot dotdot k → g.edge n k = some i → i ∈ g.node
  back {n i : I} {k : K} :
    Proper dot dotdot k → i ∈ g.dir → g.edge n k = some i → g.edge i dotdot = some n
  once {n i : I} {k k' : K} : Proper dot dotdot k → Proper dot dotdot k' → i ∈ g.dir →
    g.edge n k = some i → g.edge n k' = some i → k' = k

/-- The dots of a directory lead to directories. -/
theorem WellFormed.dots_dir {dot dotdot : K} {root : I} {g : NameGraph I K}
    (h : WellFormed dot dotdot root g) {n i : I} {k : K} (hk : ¬ Proper dot dotdot k)
    (he : g.edge n k = some i) : i ∈ g.dir := by
  have hn := h.edge_dir he
  by_cases hdot : k = dot
  · subst hdot
    rw [h.self hn] at he
    cases he
    exact hn
  · have hdd : k = dotdot := by
      by_contra hdd
      exact hk ⟨hdot, hdd⟩
    subst hdd
    have hroot : n ≠ root := by
      rintro rfl
      rw [h.root_top] at he
      cases he
    obtain ⟨p, k', hp, _, hpk⟩ := h.parent hn hroot
    rw [he] at hp
    cases hp
    exact h.edge_dir hpk

/-- Every entry of a well-formed graph refers to a node. -/
theorem WellFormed.target {dot dotdot : K} {root : I} {g : NameGraph I K}
    (h : WellFormed dot dotdot root g) {n i : I} {k : K} (he : g.edge n k = some i) :
    i ∈ g.node := by
  by_cases hk : Proper dot dotdot k
  · exact h.child hk he
  · exact h.dir_node (h.dots_dir hk he)

/-- No entry refers to what is no node. -/
theorem WellFormed.refs_fresh {dot dotdot : K} {root : I} {g : NameGraph I K}
    (h : WellFormed dot dotdot root g) {i : I} (hi : i ∉ g.node) : g.refs i = 0 :=
  refs_eq_zero fun _ _ he => hi (h.target he)

/-- What is no node has no entries. -/
theorem WellFormed.edge_fresh {dot dotdot : K} {root : I} {g : NameGraph I K}
    (h : WellFormed dot dotdot root g) {i : I} (hi : i ∉ g.node) (b : K) : g.edge i b = none := by
  rcases hb : g.edge i b with _ | j
  · rfl
  · exact absurd (h.dir_node (h.edge_dir hb)) hi

theorem WellFormed.size_fresh {dot dotdot : K} {root : I} {g : NameGraph I K}
    (h : WellFormed dot dotdot root g) {i : I} (hi : i ∉ g.node) : g.size i = 0 := by
  simp [size, keys, h.edge_fresh hi]

section named

variable {dot dotdot : K} {root : I} {g : NameGraph I K} {n i : I} {k : K}

/-- The root has no name. -/
theorem WellFormed.ne_root (h : WellFormed dot dotdot root g) (hk : Proper dot dotdot k)
    (he : g.edge n k = some i) (hi : i ∈ g.dir) : i ≠ root := by
  rintro rfl
  have hback := h.back hk hi he
  rw [h.root_top] at hback
  cases hback

/-- A directory has one name in all. -/
theorem WellFormed.only_name (h : WellFormed dot dotdot root g) (hk : Proper dot dotdot k)
    (he : g.edge n k = some i) (hi : i ∈ g.dir) {a : I} {b : K} (hb : Proper dot dotdot b)
    (hab : g.edge a b = some i) : a = n ∧ b = k := by
  have hback := h.back hk hi he
  rw [h.back hb hi hab] at hback
  cases hback
  exact ⟨rfl, h.once hk hb hi he hab⟩

/-- A named directory of at most two entries holds nothing but its dots. -/
theorem WellFormed.only_dots (h : WellFormed dot dotdot root g) (hd : dot ≠ dotdot)
    (hk : Proper dot dotdot k) (he : g.edge n k = some i) (hi : i ∈ g.dir)
    (hsize : g.size i ≤ 2) {b : K} (hb : Proper dot dotdot b) {j : I} : g.edge i b ≠ some j := by
  intro hib
  have hdot : g.edge i dot ≠ none := by
    rw [h.self hi]
    simp
  have hdd : g.edge i dotdot ≠ none := by
    rw [h.back hk hi he]
    simp
  rcases edge_of_size_le_two h.finite hd hdot hdd hsize (by rw [hib]; simp) with rfl | rfl
  · exact hb.1 rfl
  · exact hb.2 rfl

end named

/-! ## One entry changed -/

variable [DecidableEq I] [DecidableEq K]

/-- One entry changed. -/
def set (g : NameGraph I K) (n : I) (k : K) (o : Option I) : NameGraph I K :=
  { g with edge := fun a b => if a = n ∧ b = k then o else g.edge a b }

theorem edge_set (g : NameGraph I K) (n a : I) (k b : K) (o : Option I) :
    (g.set n k o).edge a b = if a = n ∧ b = k then o else g.edge a b := rfl

theorem Finite.set {g : NameGraph I K} (h : g.Finite) (n : I) (k : K) (o : Option I) :
    (g.set n k o).Finite := by
  refine (h.insert (n, k)).subset ?_
  intro p hp
  by_cases hpk : p = (n, k)
  · exact Or.inl hpk
  · refine Or.inr ?_
    have hne : ¬ (p.1 = n ∧ p.2 = k) := fun e => hpk (Prod.ext e.1 e.2)
    simpa [edge_set, hne] using hp

theorem size_set {g : NameGraph I K} (h : g.Finite) (n : I) (k : K) (o : Option I) :
    (g.set n k o).size n + (if g.edge n k = none then 0 else 1) =
      g.size n + (if o = none then 0 else 1) := by
  classical
  have := ncard_decide (s := g.keys n) (t := (g.set n k o).keys n) (h.keys n) k
    (fun x hx => by simp [keys, edge_set, hx])
  have hs : k ∈ g.keys n ↔ ¬ g.edge n k = none := Iff.rfl
  have ht : k ∈ (g.set n k o).keys n ↔ ¬ o = none := by simp [keys, edge_set]
  simpa only [size, hs, ht, ite_not] using this

theorem size_set_ne (g : NameGraph I K) {n m : I} (k : K) (o : Option I) (h : m ≠ n) :
    (g.set n k o).size m = g.size m := by
  simp [size, keys, edge_set, h]

theorem refs_set {g : NameGraph I K} (h : g.Finite) (n : I) (k : K) (o : Option I) (i : I) :
    (g.set n k o).refs i + (if g.edge n k = some i then 1 else 0) =
      g.refs i + (if o = some i then 1 else 0) := by
  classical
  have := ncard_decide (s := g.links i) (t := (g.set n k o).links i) (h.links i) (n, k)
    (fun x hx => by
      have hne : ¬ (x.1 = n ∧ x.2 = k) := fun e => hx (Prod.ext e.1 e.2)
      simp [links, edge_set, hne])
  have hs : (n, k) ∈ g.links i ↔ g.edge n k = some i := Iff.rfl
  have ht : (n, k) ∈ (g.set n k o).links i ↔ o = some i := by simp [links, edge_set]
  simpa only [refs, hs, ht] using this

/-- A free place is free without another entry too. -/
theorem free_unbind {g : NameGraph I K} {n n' : I} {k k' : K} (hfree : g.edge n' k' = none) :
    (g.set n k none).edge n' k' = none := by
  rw [edge_set, hfree, ite_self]

section counts

variable {g : NameGraph I K} (hf : g.Finite) {n i : I} {k : K}

include hf

/-- A new entry counts once, in its directory and for its target. -/
theorem size_bind (hfree : g.edge n k = none) (m : I) :
    (g.set n k (some i)).size m = g.size m + if m = n then 1 else 0 := by
  split_ifs with hm
  · subst hm
    have := size_set hf m k (some i)
    simpa [hfree] using this
  · exact size_set_ne g k _ hm

theorem refs_bind (hfree : g.edge n k = none) (j : I) :
    (g.set n k (some i)).refs j = g.refs j + if j = i then 1 else 0 := by
  have := refs_set hf n k (some i) j
  simpa [hfree, eq_comm] using this

theorem size_unbind (he : g.edge n k = some i) (m : I) :
    (g.set n k none).size m + (if m = n then 1 else 0) = g.size m := by
  split_ifs with hm
  · subst hm
    have := size_set hf m k none
    simpa [he] using this
  · exact size_set_ne g k _ hm

theorem refs_unbind (he : g.edge n k = some i) (j : I) :
    (g.set n k none).refs j + (if j = i then 1 else 0) = g.refs j := by
  have := refs_set hf n k none j
  simpa [he, eq_comm] using this

/-- An entry that gets another target changes no size. -/
theorem size_rebind (he : g.edge n k = some i) (j m : I) :
    (g.set n k (some j)).size m = g.size m := by
  by_cases hm : m = n
  · subst hm
    have := size_set hf m k (some j)
    simpa [he] using this
  · exact size_set_ne g k _ hm

theorem refs_rebind_of_ne (he : g.edge n k = some i) {j m : I} (hi : m ≠ i) (hj : m ≠ j) :
    (g.set n k (some j)).refs m = g.refs m := by
  have := refs_set hf n k (some j) m
  simpa [he, hi.symm, hj.symm] using this

/-- An entry that moves to a free place counts there. -/
theorem size_move (he : g.edge n k = some i) {n' : I} {k' : K} (hfree : g.edge n' k' = none)
    (m : I) : ((g.set n k none).set n' k' (some i)).size m + (if m = n then 1 else 0) =
      g.size m + if m = n' then 1 else 0 := by
  have hbind := size_bind (i := i) (hf.set n k none) (free_unbind hfree) m
  have hunbind := size_unbind hf he m
  omega

theorem refs_move (he : g.edge n k = some i) {n' : I} {k' : K} (hfree : g.edge n' k' = none)
    (j : I) : ((g.set n k none).set n' k' (some i)).refs j = g.refs j := by
  rw [refs_bind (hf.set n k none) (free_unbind hfree), refs_unbind hf he]

end counts

/-! ## The steps of a well-formed graph -/

variable {dot dotdot : K} {root : I} {g : NameGraph I K}

/-- A new name for a node that is no directory, which may be a new node. -/
theorem WellFormed.bind (h : WellFormed dot dotdot root g) {n i : I} {k : K} {N : Set I}
    (hn : n ∈ g.dir) (hk : Proper dot dotdot k) (hN : g.node ⊆ N) (hiN : i ∈ N)
    (hi : i ∉ g.dir) (hfree : g.edge n k = none) :
    WellFormed dot dotdot root { g.set n k (some i) with node := N } where
  finite := h.finite.set n k _
  dir_node hm := hN (h.dir_node hm)
  edge_dir {a j b} he := by
    simp only [edge_set] at he
    split_ifs at he with hab
    · rw [hab.1]
      exact hn
    · exact h.edge_dir he
  root_dir := h.root_dir
  root_top := by
    have hne : ¬ (root = n ∧ dotdot = k) := fun e => hk.2 e.2.symm
    simp only [edge_set, if_neg hne]
    exact h.root_top
  self {a} ha := by
    have hne : ¬ (a = n ∧ dot = k) := fun e => hk.1 e.2.symm
    simp only [edge_set, if_neg hne]
    exact h.self ha
  parent {a} ha hroot := by
    obtain ⟨p, b, hp, hb, hpb⟩ := h.parent ha hroot
    have hne : ¬ (a = n ∧ dotdot = k) := fun e => hk.2 e.2.symm
    have hpne : ¬ (p = n ∧ b = k) := by
      rintro ⟨rfl, rfl⟩
      rw [hfree] at hpb
      cases hpb
    refine ⟨p, b, ?_, hb, ?_⟩
    · simp only [edge_set, if_neg hne, hp]
    · simp only [edge_set, if_neg hpne, hpb]
  child {a j b} hb he := by
    simp only [edge_set] at he
    split_ifs at he with hab
    · cases he
      exact hiN
    · exact hN (h.child hb he)
  back {a j b} hb hj he := by
    simp only [edge_set] at he ⊢
    have hne : ¬ (j = n ∧ dotdot = k) := fun e => hk.2 e.2.symm
    rw [if_neg hne]
    split_ifs at he with hab
    · cases he
      exact absurd hj hi
    · exact h.back hb hj he
  once {a j b b'} hb hb' hj he he' := by
    simp only [edge_set] at he he'
    split_ifs at he he' with h1 h2 h2
    · cases he
      exact absurd hj hi
    · cases he
      exact absurd hj hi
    · cases he'
      exact absurd hj hi
    · exact h.once hb hb' hj he he'

/-- A name of a node that is no directory goes; with its last name the node may go too. -/
theorem WellFormed.unbind (h : WellFormed dot dotdot root g) {n i : I} {k : K} {N : Set I}
    (hk : Proper dot dotdot k) (he : g.edge n k = some i) (hi : i ∉ g.dir)
    (hN : ∀ a ∈ g.node, a ≠ i → a ∈ N) (hlast : i ∈ N ∨ g.refs i = 1) :
    WellFormed dot dotdot root { g.set n k none with node := N } where
  finite := h.finite.set n k _
  dir_node {a} ha := hN a (h.dir_node ha) (fun e => hi (e ▸ ha))
  edge_dir {a j b} hab := by
    simp only [edge_set] at hab
    split_ifs at hab
    exact h.edge_dir hab
  root_dir := h.root_dir
  root_top := by
    simp only [edge_set, h.root_top, ite_self]
  self {a} ha := by
    have hne : ¬ (a = n ∧ dot = k) := fun e => hk.1 e.2.symm
    simp only [edge_set, if_neg hne]
    exact h.self ha
  parent {a} ha hroot := by
    obtain ⟨p, b, hp, hb, hpb⟩ := h.parent ha hroot
    have hne : ¬ (a = n ∧ dotdot = k) := fun e => hk.2 e.2.symm
    have hpne : ¬ (p = n ∧ b = k) := by
      rintro ⟨rfl, rfl⟩
      rw [he] at hpb
      cases hpb
      exact hi ha
    refine ⟨p, b, ?_, hb, ?_⟩
    · simp only [edge_set, if_neg hne, hp]
    · simp only [edge_set, if_neg hpne, hpb]
  child {a j b} hb hab := by
    simp only [edge_set] at hab
    split_ifs at hab with hpos
    by_cases hji : j = i
    · subst hji
      rcases hlast with hj | h1
      · exact hj
      · exact absurd (eq_of_refs_eq_one h1 he hab) hpos
    · exact hN j (h.child hb hab) hji
  back {a j b} hb hj hab := by
    simp only [edge_set] at hab ⊢
    have hne : ¬ (j = n ∧ dotdot = k) := fun e => hk.2 e.2.symm
    rw [if_neg hne]
    split_ifs at hab
    exact h.back hb hj hab
  once {a j b b'} hb hb' hj hab hab' := by
    simp only [edge_set] at hab hab'
    split_ifs at hab hab'
    exact h.once hb hb' hj hab hab'

/-- The graph with a new directory `i` under the name `k` of `n`. -/
def addDir (dot dotdot : K) (g : NameGraph I K) (n : I) (k : K) (i : I) : NameGraph I K :=
  { ((g.set n k (some i)).set i dot (some i)).set i dotdot (some n) with
    node := insert i g.node
    dir := insert i g.dir }

section addDir

variable (h : WellFormed dot dotdot root g) (hd : dot ≠ dotdot) {n i : I} {k : K}
  (hn : n ∈ g.dir) (hi : i ∉ g.node)

include h hd hn hi

/-- The three entries of a new directory are written to free places. -/
theorem WellFormed.addDir_free : (g.set n k (some i)).edge i dot = none ∧
    ((g.set n k (some i)).set i dot (some i)).edge i dotdot = none := by
  have hni : i ≠ n := fun e => hi (e ▸ h.dir_node hn)
  constructor
  · rw [edge_set, if_neg (fun e => hni e.1), h.edge_fresh hi]
  · rw [edge_set, if_neg (fun e => hd e.2.symm), edge_set, if_neg (fun e => hni e.1),
      h.edge_fresh hi]

theorem WellFormed.size_addDir (hfree : g.edge n k = none) (m : I) :
    (addDir dot dotdot g n k i).size m =
    g.size m + (if m = n then 1 else 0) + if m = i then 2 else 0 := by
  obtain ⟨h1, h2⟩ := h.addDir_free (k := k) hd hn hi
  have hf := h.finite.set n k (some i)
  change (((g.set n k (some i)).set i dot (some i)).set i dotdot (some n)).size m = _
  rw [size_bind (hf.set i dot (some i)) h2, size_bind hf h1, size_bind h.finite hfree]
  split_ifs <;> omega

theorem WellFormed.refs_addDir (hfree : g.edge n k = none) {j : I} (hj : j ∉ g.dir) (hji : j ≠ i) :
    (addDir dot dotdot g n k i).refs j = g.refs j := by
  obtain ⟨h1, h2⟩ := h.addDir_free (k := k) hd hn hi
  have hf := h.finite.set n k (some i)
  have hjn : j ≠ n := fun e => hj (e ▸ hn)
  change (((g.set n k (some i)).set i dot (some i)).set i dotdot (some n)).refs j = _
  rw [refs_bind (hf.set i dot (some i)) h2, refs_bind hf h1, refs_bind h.finite hfree]
  simp only [if_neg hji, if_neg hjn, Nat.add_zero]

end addDir

theorem WellFormed.addDir (h : WellFormed dot dotdot root g) (hd : dot ≠ dotdot) {n i : I} {k : K}
    (hn : n ∈ g.dir) (hk : Proper dot dotdot k) (hfree : g.edge n k = none) (hi : i ∉ g.node) :
    WellFormed dot dotdot root (addDir dot dotdot g n k i) := by
  have hni : n ≠ i := fun e => hi (e ▸ h.dir_node hn)
  have hedge : ∀ a b, (NameGraph.addDir dot dotdot g n k i).edge a b =
      if a = i ∧ b = dotdot then some n else if a = i ∧ b = dot then some i
      else if a = n ∧ b = k then some i else g.edge a b := fun a b => rfl
  -- the new directory has no entries yet, and nothing refers to it
  have hempty := h.edge_fresh hi
  have hnew : ∀ a b, g.edge a b ≠ some i := fun a b e => hi (h.target e)
  -- away from the two dots of the new directory, a proper entry is the new one or an old one
  have hproper : ∀ a b j, Proper dot dotdot b →
      (NameGraph.addDir dot dotdot g n k i).edge a b = some j →
      (a = n ∧ b = k ∧ j = i) ∨ (g.edge a b = some j ∧ a ≠ i) := by
    intro a b j hb e
    rw [hedge, if_neg (fun e => hb.2 e.2), if_neg (fun e => hb.1 e.2)] at e
    split_ifs at e with hab
    · cases e
      exact .inl ⟨hab.1, hab.2, rfl⟩
    · refine .inr ⟨e, ?_⟩
      rintro rfl
      rw [hempty] at e
      cases e
  -- the parent entry of an old directory stands
  have hold : ∀ a, a ≠ i →
      (NameGraph.addDir dot dotdot g n k i).edge a dotdot = g.edge a dotdot := by
    intro a ha
    rw [hedge, if_neg (fun e => ha e.1), if_neg (fun e => ha e.1),
      if_neg (fun e => hk.2 e.2.symm)]
  exact
    { finite := ((h.finite.set _ _ _).set _ _ _).set _ _ _
      dir_node := by
        rintro a (rfl | ha)
        · exact Or.inl rfl
        · exact Or.inr (h.dir_node ha)
      edge_dir := by
        intro a j b e
        rw [hedge] at e
        split_ifs at e with h1 h2 h3
        · exact Or.inl h1.1
        · exact Or.inl h2.1
        · exact Or.inr (h3.1 ▸ hn)
        · exact Or.inr (h.edge_dir e)
      root_dir := Or.inr h.root_dir
      root_top := by
        rw [hold root (fun e => hi (e ▸ h.dir_node h.root_dir))]
        exact h.root_top
      self := by
        intro a ha
        rw [hedge, if_neg (fun e => hd e.2)]
        rcases ha with rfl | ha
        · rw [if_pos ⟨rfl, rfl⟩]
        · have hai : a ≠ i := fun e => hi (e ▸ h.dir_node ha)
          rw [if_neg (fun e => hai e.1), if_neg (fun e => hk.1 e.2.symm)]
          exact h.self ha
      parent := by
        rintro a ha hroot
        by_cases hai : a = i
        · subst hai
          refine ⟨n, k, ?_, hk, ?_⟩
          · rw [hedge, if_pos ⟨rfl, rfl⟩]
          · rw [hedge, if_neg (fun e => hni e.1), if_neg (fun e => hni e.1), if_pos ⟨rfl, rfl⟩]
        · obtain ⟨p, b, hp, hb, hpb⟩ := h.parent (ha.resolve_left hai) hroot
          refine ⟨p, b, ?_, hb, ?_⟩
          · rw [hold a hai, hp]
          · rw [hedge, if_neg (fun e => hb.2 e.2), if_neg (fun e => hb.1 e.2), if_neg, hpb]
            rintro ⟨rfl, rfl⟩
            rw [hfree] at hpb
            cases hpb
      child := by
        intro a j b hb e
        rcases hproper a b j hb e with ⟨_, _, rfl⟩ | ⟨e, _⟩
        · exact Or.inl rfl
        · exact Or.inr (h.child hb e)
      back := by
        intro a j b hb hj e
        rcases hproper a b j hb e with ⟨rfl, _, rfl⟩ | ⟨e, _⟩
        · rw [hedge, if_pos ⟨rfl, rfl⟩]
        · have hji : j ≠ i := fun eq => hnew a b (eq ▸ e)
          rw [hold j hji]
          exact h.back hb (hj.resolve_left hji) e
      once := by
        intro a j b b' hb hb' hj e e'
        rcases hproper a b j hb e with ⟨_, rfl, rfl⟩ | ⟨e, _⟩
        · rcases hproper a b' j hb' e' with ⟨_, rfl, _⟩ | ⟨e', _⟩
          · rfl
          · exact absurd e' (hnew a b')
        · have hji : j ≠ i := fun eq => hnew a b (eq ▸ e)
          rcases hproper a b' j hb' e' with ⟨_, _, rfl⟩ | ⟨e', _⟩
          · exact absurd rfl hji
          · exact h.once hb hb' (hj.resolve_left hji) e e' }

/-- The graph without the directory `i`, whose only name was `k` in `n`. -/
def removeDir (g : NameGraph I K) (n : I) (k : K) (i : I) : NameGraph I K :=
  { node := g.node \ {i}
    dir := g.dir \ {i}
    edge := fun a b => if a = i then none else (g.set n k none).edge a b }

theorem WellFormed.removeDir (h : WellFormed dot dotdot root g) (hd : dot ≠ dotdot) {n i : I}
    {k : K} (hk : Proper dot dotdot k) (he : g.edge n k = some i) (hi : i ∈ g.dir)
    (hsize : g.size i ≤ 2) : WellFormed dot dotdot root (removeDir g n k i) := by
  have hempty : ∀ b j, Proper dot dotdot b → g.edge i b ≠ some j := fun _ _ hb =>
    h.only_dots hd hk he hi hsize hb
  have hedge : ∀ a b, (NameGraph.removeDir g n k i).edge a b =
      if a = i then none else if a = n ∧ b = k then none else g.edge a b := fun a b => rfl
  have hold : ∀ a b j, (NameGraph.removeDir g n k i).edge a b = some j →
      a ≠ i ∧ ¬ (a = n ∧ b = k) ∧ g.edge a b = some j := by
    intro a b j e
    rw [hedge] at e
    split_ifs at e with h1 h2
    exact ⟨h1, h2, e⟩
  exact
    { finite := by
        refine h.finite.subset ?_
        intro p hp
        obtain ⟨j, hj⟩ := Option.ne_none_iff_exists'.mp hp
        change g.edge p.1 p.2 ≠ none
        rw [(hold _ _ _ hj).2.2]
        simp
      dir_node := fun ha => ⟨h.dir_node ha.1, ha.2⟩
      edge_dir := fun e => ⟨h.edge_dir (hold _ _ _ e).2.2, (hold _ _ _ e).1⟩
      root_dir := ⟨h.root_dir, (h.ne_root hk he hi).symm⟩
      root_top := by
        rw [hedge, h.root_top]
        simp
      self := by
        rintro a ⟨ha, (hai : a ≠ i)⟩
        rw [hedge, if_neg hai, if_neg (fun e => hk.1 e.2.symm)]
        exact h.self ha
      parent := by
        rintro a ⟨ha, (hai : a ≠ i)⟩ har
        obtain ⟨p, b, hp, hb, hpb⟩ := h.parent ha har
        have hpi : p ≠ i := fun e => hempty b a hb (e ▸ hpb)
        have hpk : ¬ (p = n ∧ b = k) := by
          rintro ⟨rfl, rfl⟩
          rw [he] at hpb
          cases hpb
          exact hai rfl
        refine ⟨p, b, ?_, hb, ?_⟩
        · rw [hedge, if_neg hai, if_neg (fun e => hk.2 e.2.symm), hp]
        · rw [hedge, if_neg hpi, if_neg hpk, hpb]
      child := by
        intro a j b hb e
        obtain ⟨_, hne, e'⟩ := hold _ _ _ e
        refine ⟨h.child hb e', ?_⟩
        rintro rfl
        exact hne (h.only_name hk he hi hb e')
      back := by
        rintro a j b hb ⟨hj, (hji : j ≠ i)⟩ e
        obtain ⟨_, hne, e'⟩ := hold _ _ _ e
        rw [hedge, if_neg hji, if_neg (fun e => hk.2 e.2.symm)]
        exact h.back hb hj e'
      once := by
        rintro a j b b' hb hb' ⟨hj, hji⟩ e e'
        exact h.once hb hb' hj (hold _ _ _ e).2.2 (hold _ _ _ e').2.2 }

theorem size_removeDir (g : NameGraph I K) {n i m : I} (k : K) (hm : m ≠ i) :
    (removeDir g n k i).size m = (g.set n k none).size m := by
  simp [size, keys, NameGraph.removeDir, hm]

/-- A directory that goes takes no name of another node that is no directory with it. -/
theorem WellFormed.refs_removeDir (h : WellFormed dot dotdot root g) (hd : dot ≠ dotdot)
    {n i j : I} {k : K} (hk : Proper dot dotdot k) (he : g.edge n k = some i) (hi : i ∈ g.dir)
    (hsize : g.size i ≤ 2) (hj : j ∉ g.dir) :
    (NameGraph.removeDir g n k i).refs j = g.refs j := by
  have hlinks : (NameGraph.removeDir g n k i).links j = g.links j := by
    ext ⟨a, b⟩
    change (if a = i then none else if a = n ∧ b = k then none else g.edge a b) = some j ↔
      g.edge a b = some j
    split_ifs with h1 h2
    · subst h1
      refine ⟨nofun, fun hab => ?_⟩
      by_cases hb : Proper dot dotdot b
      · exact absurd hab (h.only_dots hd hk he hi hsize hb)
      · exact absurd (h.dots_dir hb hab) hj
    · refine ⟨nofun, ?_⟩
      rw [h2.1, h2.2, he]
      rintro ⟨rfl⟩
      exact hj hi
    · exact Iff.rfl
  unfold refs
  rw [hlinks]

/-- A directory moves from one name to another, and its parent entry follows. -/
theorem WellFormed.moveDir (h : WellFormed dot dotdot root g) (hd : dot ≠ dotdot) {n n' i : I}
    {k k' : K} (hk : Proper dot dotdot k) (hk' : Proper dot dotdot k') (he : g.edge n k = some i)
    (hi : i ∈ g.dir) (hn' : n' ∈ g.dir) (hfree : g.edge n' k' = none) :
    WellFormed dot dotdot root
      (((g.set n k none).set n' k' (some i)).set i dotdot (some n')) := by
  have hedge : ∀ a b, (((g.set n k none).set n' k' (some i)).set i dotdot (some n')).edge a b =
      if a = i ∧ b = dotdot then some n' else if a = n' ∧ b = k' then some i
      else if a = n ∧ b = k then none else g.edge a b := fun a b => rfl
  have hproper : ∀ a b j, Proper dot dotdot b →
      (((g.set n k none).set n' k' (some i)).set i dotdot (some n')).edge a b = some j →
      (a = n' ∧ b = k' ∧ j = i) ∨ (g.edge a b = some j ∧ ¬ (a = n ∧ b = k)) := by
    intro a b j hb e
    rw [hedge, if_neg (fun e => hb.2 e.2)] at e
    split_ifs at e with h1 h2
    · cases e
      exact .inl ⟨h1.1, h1.2, rfl⟩
    · exact .inr ⟨e, h2⟩
  have hold : ∀ a, a ≠ i →
      (((g.set n k none).set n' k' (some i)).set i dotdot (some n')).edge a dotdot =
        g.edge a dotdot := by
    intro a ha
    rw [hedge, if_neg (fun e => ha e.1), if_neg (fun e => hk'.2 e.2.symm),
      if_neg (fun e => hk.2 e.2.symm)]
  exact
    { finite := ((h.finite.set _ _ _).set _ _ _).set _ _ _
      dir_node := h.dir_node
      edge_dir := by
        intro a j b e
        rw [hedge] at e
        split_ifs at e with h1 h2 h3
        · exact h1.1 ▸ hi
        · exact h2.1 ▸ hn'
        · exact h.edge_dir e
      root_dir := h.root_dir
      root_top := by
        rw [hold root (h.ne_root hk he hi).symm]
        exact h.root_top
      self := by
        intro a ha
        rw [hedge, if_neg (fun e => hd e.2), if_neg (fun e => hk'.1 e.2.symm),
          if_neg (fun e => hk.1 e.2.symm)]
        exact h.self ha
      parent := by
        intro a ha har
        by_cases hai : a = i
        · subst hai
          refine ⟨n', k', ?_, hk', ?_⟩
          · rw [hedge, if_pos ⟨rfl, rfl⟩]
          · rw [hedge, if_neg (fun e => hk'.2 e.2), if_pos ⟨rfl, rfl⟩]
        · obtain ⟨p, b, hp, hb, hpb⟩ := h.parent ha har
          refine ⟨p, b, ?_, hb, ?_⟩
          · rw [hold a hai, hp]
          · rw [hedge, if_neg (fun e => hb.2 e.2), if_neg, if_neg, hpb]
            · rintro ⟨rfl, rfl⟩
              rw [he] at hpb
              cases hpb
              exact hai rfl
            · rintro ⟨rfl, rfl⟩
              rw [hfree] at hpb
              cases hpb
      child := by
        intro a j b hb e
        rcases hproper a b j hb e with ⟨_, _, rfl⟩ | ⟨e, _⟩
        · exact h.dir_node hi
        · exact h.child hb e
      back := by
        intro a j b hb hj e
        rcases hproper a b j hb e with ⟨rfl, _, rfl⟩ | ⟨e, hne⟩
        · rw [hedge, if_pos ⟨rfl, rfl⟩]
        · have hji : j ≠ i := fun eq => hne (h.only_name hk he hi hb (eq ▸ e))
          rw [hold j hji]
          exact h.back hb hj e
      once := by
        intro a j b b' hb hb' hj e e'
        rcases hproper a b j hb e with ⟨_, rfl, rfl⟩ | ⟨e, hne⟩
        · rcases hproper a b' j hb' e' with ⟨_, rfl, _⟩ | ⟨e', hne⟩
          · rfl
          · exact absurd (h.only_name hk he hi hb' e') hne
        · have hji : j ≠ i := fun eq => hne (h.only_name hk he hi hb (eq ▸ e))
          rcases hproper a b' j hb' e' with ⟨_, _, rfl⟩ | ⟨e', _⟩
          · exact absurd rfl hji
          · exact h.once hb hb' hj e e' }

end NameGraph
