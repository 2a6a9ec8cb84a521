-- Trees of names. A graph of names is a tree when names lead from the root to every node. The
-- changes of a name keep it one, but for a directory that is moved to a place inside itself:
-- that directory is cut off with all below it.
import Mathlib.Logic.Relation
import Dbfs2.NameGraph

namespace NameGraph

variable {I K : Type}

/-! ## Paths -/

/-- The node at the end of a path. -/
def walk (g : NameGraph I K) : I → List K → Option I
  | n, [] => some n
  | n, k :: path => (g.edge n k).bind fun i => g.walk i path

theorem walk_append (g : NameGraph I K) (n : I) (p q : List K) :
    g.walk n (p ++ q) = (g.walk n p).bind fun i => g.walk i q := by
  induction p generalizing n with
  | nil => rfl
  | cons k p ih =>
    rw [List.cons_append, walk, walk]
    rcases g.edge n k with _ | i
    · rfl
    · exact ih i

theorem walk_concat {g : NameGraph I K} {n i : I} {p : List K} {k : K} :
    g.walk n (p ++ [k]) = some i ↔ ∃ m, g.walk n p = some m ∧ g.edge m k = some i := by
  rw [walk_append, Option.bind_eq_some_iff]
  simp only [walk, Option.bind_fun_some]

/-- A path of names proper. -/
def ProperPath (dot dotdot : K) (path : List K) : Prop := ∀ k ∈ path, Proper dot dotdot k

theorem properPath_concat {dot dotdot : K} {p : List K} {k : K} :
    ProperPath dot dotdot (p ++ [k]) ↔ ProperPath dot dotdot p ∧ Proper dot dotdot k := by
  simp only [ProperPath, List.mem_append, List.mem_singleton, or_imp, forall_and, forall_eq]

/-- Node `i` has a name in `n`. -/
def Child (dot dotdot : K) (g : NameGraph I K) (n i : I) : Prop :=
  ∃ k, Proper dot dotdot k ∧ g.edge n k = some i

/-- Node `i` is `n`, or lies below it. -/
abbrev Below (dot dotdot : K) (g : NameGraph I K) : I → I → Prop :=
  Relation.ReflTransGen (Child dot dotdot g)

theorem below_iff_walk {dot dotdot : K} {g : NameGraph I K} {n i : I} :
    Below dot dotdot g n i ↔ ∃ p, ProperPath dot dotdot p ∧ g.walk n p = some i := by
  constructor
  · intro h
    induction h with
    | refl => exact ⟨[], by simp [ProperPath], rfl⟩
    | tail _ hchild ih =>
      obtain ⟨p, hp, hwalk⟩ := ih
      obtain ⟨k, hk, he⟩ := hchild
      exact ⟨p ++ [k], properPath_concat.mpr ⟨hp, hk⟩, walk_concat.mpr ⟨_, hwalk, he⟩⟩
  · rintro ⟨p, hp, hwalk⟩
    induction p using List.reverseRecOn generalizing i with
    | nil =>
      cases hwalk
      exact .refl
    | append_singleton p k ih =>
      obtain ⟨hp, hk⟩ := properPath_concat.mp hp
      obtain ⟨m, hm, he⟩ := walk_concat.mp hwalk
      exact (ih hp hm).tail ⟨k, hk, he⟩

/-- Names lead to every directory, and every other node has a name. -/
structure Rooted (dot dotdot : K) (root : I) (g : NameGraph I K) : Prop where
  dirs {n : I} : n ∈ g.dir → Below dot dotdot g root n
  leaves {i : I} : i ∈ g.node → i ∉ g.dir → ∃ n k, g.edge n k = some i

section tree

variable {dot dotdot : K} {root : I} {g : NameGraph I K} (h : WellFormed dot dotdot root g)

include h

/-- In a rooted graph names lead to every node. -/
theorem Rooted.below (hr : Rooted dot dotdot root g) {i : I} (hi : i ∈ g.node) :
    Below dot dotdot g root i := by
  by_cases hd : i ∈ g.dir
  · exact hr.dirs hd
  · obtain ⟨n, k, he⟩ := hr.leaves hi hd
    have hk : Proper dot dotdot k := by
      by_contra hk
      exact hd (h.dots_dir hk he)
    exact (hr.dirs (h.edge_dir he)).tail ⟨k, hk, he⟩

/-- Only one path of names proper leads to a directory. -/
theorem WellFormed.path_unique {n : I} (hn : n ∈ g.dir) {p q : List K}
    (hp : ProperPath dot dotdot p) (hq : ProperPath dot dotdot q)
    (hwp : g.walk root p = some n) (hwq : g.walk root q = some n) : p = q := by
  -- the last name of a path is the only one of its directory, and nothing names the root
  induction p using List.reverseRecOn generalizing n q with
  | nil =>
    cases hwp
    rcases List.eq_nil_or_concat' q with rfl | ⟨q, k, rfl⟩
    · rfl
    · obtain ⟨m, _, he⟩ := walk_concat.mp hwq
      exact absurd rfl (h.ne_root (properPath_concat.mp hq).2 he hn)
  | append_singleton p k ih =>
    obtain ⟨hp, hk⟩ := properPath_concat.mp hp
    obtain ⟨m, hm, he⟩ := walk_concat.mp hwp
    rcases List.eq_nil_or_concat' q with rfl | ⟨q, k', rfl⟩
    · cases hwq
      exact absurd rfl (h.ne_root hk he hn)
    · obtain ⟨hq, hk'⟩ := properPath_concat.mp hq
      obtain ⟨m', hm', he'⟩ := walk_concat.mp hwq
      obtain ⟨hmm, hkk⟩ := h.only_name hk he hn hk' he'
      rw [ih (h.edge_dir he) hp hq hm (hmm ▸ hm'), hkk]

/-- Nothing lies above the root. -/
theorem WellFormed.not_below_root {i : I} (hi : i ≠ root) : ¬ Below dot dotdot g i root := by
  intro hb
  rcases Relation.ReflTransGen.cases_tail hb with he | ⟨m, _, k, hk, he⟩
  · exact hi he.symm
  · exact h.ne_root hk he h.root_dir rfl

/-- What lies above a directory lies above its parent, or is the directory itself. -/
theorem WellFormed.below_parent {i m n : I} {k : K} (hk : Proper dot dotdot k)
    (he : g.edge m k = some n) (hn : n ∈ g.dir) (hb : Below dot dotdot g i n) :
    n = i ∨ Below dot dotdot g i m := by
  rcases Relation.ReflTransGen.cases_tail hb with he' | ⟨m', hm', k', hk', he'⟩
  · exact .inl he'
  · obtain ⟨rfl, rfl⟩ := h.only_name hk he hn hk' he'
    exact .inr hm'

/-- Where the names of directories stand as they were, the way to a directory does too. -/
theorem WellFormed.below_of_dirs {g' : NameGraph I K} {P : I → Prop}
    (hP : ∀ {m n : I} {k : K}, Proper dot dotdot k → g.edge m k = some n → P n → P m)
    (hkeep : ∀ {m n : I} {k : K}, Proper dot dotdot k → g.edge m k = some n → n ∈ g.dir → P n →
      g'.edge m k = some n) {n : I} (hn : n ∈ g.dir) (hPn : P n)
    (hb : Below dot dotdot g root n) : Below dot dotdot g' root n := by
  induction hb with
  | refl => exact .refl
  | tail _ hchild ih =>
    obtain ⟨k, hk, he⟩ := hchild
    exact (ih (h.edge_dir he) (hP hk he hPn)).tail ⟨k, hk, hkeep hk he hn hPn⟩

end tree

/-! ## New and lost names -/

section places

variable {g : NameGraph I K} {n i a j : I} {k b : K}

/-- An entry is not where the graph has none. -/
theorem ne_of_free (hfree : g.edge n k = none) (he : g.edge a b = some j) :
    ¬ (a = n ∧ b = k) := by
  rintro ⟨rfl, rfl⟩
  rw [hfree] at he
  cases he

theorem ne_of_edge (he : g.edge n k = some i) (hj : j ≠ i) (he' : g.edge a b = some j) :
    ¬ (a = n ∧ b = k) := by
  rintro ⟨rfl, rfl⟩
  exact hj (Option.some.inj (he'.symm.trans he))

end places

variable [DecidableEq I] [DecidableEq K]

/-- The graph with a new name for `i`, which may be a new node. -/
def name (g : NameGraph I K) (n : I) (k : K) (i : I) : NameGraph I K :=
  { g.set n k (some i) with node := insert i g.node }

/-- The graph without a name of `i`. With its last name the node goes. -/
noncomputable def unname (g : NameGraph I K) (n : I) (k : K) (i : I) : NameGraph I K :=
  { g.set n k none with node := if g.refs i = 1 then g.node \ {i} else g.node }

open Classical in
/-- The graph with `i` under another name. The parent entry of a directory follows. -/
noncomputable def move (dotdot : K) (g : NameGraph I K) (n : I) (k : K) (n' : I) (k' : K) (i : I) :
    NameGraph I K :=
  if i ∈ g.dir then ((g.set n k none).set n' k' (some i)).set i dotdot (some n')
  else (g.set n k none).set n' k' (some i)

section changes

variable {dot dotdot : K} {root : I} {g : NameGraph I K} {n i : I} {k : K}

theorem edge_set_of_edge {a j : I} {b : K} {o : Option I} (hne : ¬ (a = n ∧ b = k))
    (he : g.edge a b = some j) : (g.set n k o).edge a b = some j := by
  rw [edge_set, if_neg hne, he]

theorem Rooted.name (hr : Rooted dot dotdot root g) (hfree : g.edge n k = none)
    (hi : i ∉ g.dir) : Rooted dot dotdot root (g.name n k i) where
  dirs := fun hn => by
    refine Relation.ReflTransGen.mono ?_ _ _ (hr.dirs hn)
    rintro a b ⟨k', hk', he⟩
    exact ⟨k', hk', edge_set_of_edge (ne_of_free hfree he) he⟩
  leaves := by
    rintro j (rfl | hj) hd
    · exact ⟨n, k, by simp [NameGraph.name, edge_set]⟩
    · obtain ⟨a, b, he⟩ := hr.leaves hj hd
      exact ⟨a, b, edge_set_of_edge (ne_of_free hfree he) he⟩

variable (h : WellFormed dot dotdot root g)

include h

theorem Rooted.unname (hr : Rooted dot dotdot root g) (he : g.edge n k = some i)
    (hi : i ∉ g.dir) : Rooted dot dotdot root (g.unname n k i) where
  dirs := fun {m} hm => by
    have hkeep : ∀ {a j : I} {b : K}, Proper dot dotdot b → g.edge a b = some j → j ∈ g.dir →
        True → (g.unname n k i).edge a b = some j := fun _ he' hj _ =>
      edge_set_of_edge (ne_of_edge he (fun e => hi (e ▸ hj)) he') he'
    exact h.below_of_dirs (P := fun _ => True) (fun _ _ _ => trivial) hkeep hm trivial
      (hr.dirs hm)
  leaves := by
    intro j hj hd
    by_cases hji : j = i
    · subst hji
      -- the node is still there, so this was not its only name
      have hrefs : g.refs j ≠ 1 := by
        intro h1
        simp [NameGraph.unname, h1] at hj
      by_contra hnone
      refine hrefs (Set.ncard_eq_one.mpr ⟨(n, k), Set.eq_singleton_iff_unique_mem.mpr ⟨he, ?_⟩⟩)
      rintro ⟨a, b⟩ (hab : g.edge a b = some j)
      by_contra hne
      exact hnone ⟨a, b, edge_set_of_edge (fun e => hne (Prod.ext e.1 e.2)) hab⟩
    · have hj' : j ∈ g.node := by
        simp only [NameGraph.unname] at hj
        split_ifs at hj
        · exact hj.1
        · exact hj
      obtain ⟨a, b, hab⟩ := hr.leaves hj' hd
      exact ⟨a, b, edge_set_of_edge (ne_of_edge he hji hab) hab⟩

theorem Rooted.addDir (hr : Rooted dot dotdot root g) (hn : n ∈ g.dir)
    (hk : Proper dot dotdot k) (hfree : g.edge n k = none) (hi : i ∉ g.node) :
    Rooted dot dotdot root (NameGraph.addDir dot dotdot g n k i) := by
  have hni : n ≠ i := fun e => hi (e ▸ h.dir_node hn)
  have hkeep : ∀ {a j : I} {b : K}, g.edge a b = some j →
      (NameGraph.addDir dot dotdot g n k i).edge a b = some j := by
    intro a j b he
    have hai : a ≠ i := fun e => hi (e ▸ h.dir_node (h.edge_dir he))
    exact edge_set_of_edge (fun e => hai e.1) (edge_set_of_edge (fun e => hai e.1)
      (edge_set_of_edge (ne_of_free hfree he) he))
  have hnew : (NameGraph.addDir dot dotdot g n k i).edge n k = some i := by
    simp [NameGraph.addDir, edge_set, hni]
  have hold : ∀ {m : I}, m ∈ g.dir →
      Below dot dotdot (NameGraph.addDir dot dotdot g n k i) root m := fun hm =>
    Relation.ReflTransGen.mono (fun _ _ ⟨b, hb, he⟩ => ⟨b, hb, hkeep he⟩) _ _ (hr.dirs hm)
  refine ⟨?_, ?_⟩
  · rintro m (rfl | hm)
    · exact (hold hn).tail ⟨k, hk, hnew⟩
    · exact hold hm
  · rintro j (rfl | hj) hd
    · exact absurd (Set.mem_insert j g.dir) hd
    · obtain ⟨a, b, he⟩ := hr.leaves hj fun e => hd (Set.mem_insert_of_mem i e)
      exact ⟨a, b, hkeep he⟩

theorem Rooted.removeDir (hr : Rooted dot dotdot root g) (hd : dot ≠ dotdot)
    (hk : Proper dot dotdot k) (he : g.edge n k = some i) (hi : i ∈ g.dir)
    (hsize : g.size i ≤ 2) : Rooted dot dotdot root (NameGraph.removeDir g n k i) := by
  -- the directory is empty, so that nothing is named through it
  have hempty : ∀ {a j : I} {b : K}, Proper dot dotdot b → g.edge a b = some j → a ≠ i := by
    rintro a j b hb hab rfl
    exact h.only_dots hd hk he hi hsize hb hab
  have hkeep : ∀ {a j : I} {b : K}, Proper dot dotdot b → g.edge a b = some j → j ≠ i →
      (NameGraph.removeDir g n k i).edge a b = some j := by
    intro a j b hb hab hj
    simp only [NameGraph.removeDir, if_neg (hempty hb hab)]
    exact edge_set_of_edge (ne_of_edge he hj hab) hab
  refine ⟨?_, ?_⟩
  · rintro m ⟨hm, hmi⟩
    exact h.below_of_dirs (P := (· ≠ i)) (fun hb hab _ => hempty hb hab)
      (fun hb hab _ hj => hkeep hb hab hj) hm hmi (hr.dirs hm)
  · rintro j ⟨hj, hji⟩ hjd
    have hleaf : j ∉ g.dir := fun e => hjd ⟨e, hji⟩
    obtain ⟨a, b, hab⟩ := hr.leaves hj hleaf
    have hb : Proper dot dotdot b := by
      by_contra hb
      exact hleaf (h.dots_dir hb hab)
    exact ⟨a, b, hkeep hb hab hji⟩

/-! ## Moves -/

section move

variable {n' : I} {k' : K}

omit h in
theorem edge_move {a : I} {b : K} (hb : b ≠ dotdot) :
    (g.move dotdot n k n' k' i).edge a b =
      if a = n' ∧ b = k' then some i else if a = n ∧ b = k then none else g.edge a b := by
  unfold NameGraph.move
  by_cases hi : i ∈ g.dir
  · rw [if_pos hi, edge_set, if_neg fun e => hb e.2]
    rfl
  · rw [if_neg hi]
    rfl

omit h in
theorem move_node : (g.move dotdot n k n' k' i).node = g.node := by
  unfold NameGraph.move
  split_ifs <;> rfl

omit h in
theorem move_dir : (g.move dotdot n k n' k' i).dir = g.dir := by
  unfold NameGraph.move
  split_ifs <;> rfl

omit h in
theorem move_keeps (hfree : g.edge n' k' = none) {a j : I} {b : K} (hb : Proper dot dotdot b)
    (hne : ¬ (a = n ∧ b = k)) (hab : g.edge a b = some j) :
    (g.move dotdot n k n' k' i).edge a b = some j := by
  rw [edge_move hb.2, if_neg (ne_of_free hfree hab), if_neg hne, hab]

omit h in
theorem move_names (hk' : Proper dot dotdot k') :
    Child dot dotdot (g.move dotdot n k n' k' i) n' i := by
  refine ⟨k', hk', ?_⟩
  rw [edge_move hk'.2, if_pos ⟨rfl, rfl⟩]

/-- A move keeps the tree, unless a directory goes to a place inside itself. -/
theorem Rooted.move (hr : Rooted dot dotdot root g) (he : g.edge n k = some i)
    (hk' : Proper dot dotdot k') (hn' : n' ∈ g.dir)
    (hfree : g.edge n' k' = none) (hout : i ∈ g.dir → ¬ Below dot dotdot g i n') :
    Rooted dot dotdot root (g.move dotdot n k n' k' i) := by
  have hothers : ∀ {a j : I} {b : K}, Proper dot dotdot b → g.edge a b = some j → j ≠ i →
      (g.move dotdot n k n' k' i).edge a b = some j := fun hb hab hj =>
    move_keeps hfree hb (ne_of_edge he hj hab) hab
  refine ⟨fun {m} hm => ?_, fun {j} hj hd => ?_⟩
  · rw [move_dir] at hm
    by_cases hi : i ∈ g.dir
    · -- what is not inside the directory is where it was, and the rest follows the directory
      have houtside : ∀ {m}, m ∈ g.dir → ¬ Below dot dotdot g i m →
          Below dot dotdot (g.move dotdot n k n' k' i) root m := fun hm hmi =>
        h.below_of_dirs (P := fun m => ¬ Below dot dotdot g i m)
          (fun hb hab hj hi' => hj (hi'.tail ⟨_, hb, hab⟩))
          (fun hb hab _ hj => hothers hb hab fun e => hj (e ▸ .refl)) hm hmi (hr.dirs hm)
      have hinside : ∀ {m}, Below dot dotdot g i m →
          Below dot dotdot (g.move dotdot n k n' k' i) i m := by
        intro m hmi
        induction hmi with
        | refl => exact .refl
        | @tail a j _ hchild ih =>
          obtain ⟨b, hb, hab⟩ := hchild
          by_cases hj : j = i
          · rw [hj]
          · exact ih.tail ⟨b, hb, hothers hb hab hj⟩
      by_cases hmi : Below dot dotdot g i m
      · exact ((houtside hn' (hout hi)).tail (move_names hk')).trans (hinside hmi)
      · exact houtside hm hmi
    · exact h.below_of_dirs (P := fun _ => True) (fun _ _ _ => trivial)
        (fun hb hab hj _ => hothers hb hab fun e => hi (e ▸ hj)) hm trivial (hr.dirs hm)
  · rw [move_node] at hj
    rw [move_dir] at hd
    by_cases hji : j = i
    · have hnames : Child dot dotdot (g.move dotdot n k n' k' i) n' i := move_names hk'
      obtain ⟨b, _, hb⟩ := hnames
      exact ⟨n', b, hji ▸ hb⟩
    · obtain ⟨a, b, hab⟩ := hr.leaves hj hd
      have hb : Proper dot dotdot b := by
        by_contra hb
        exact hd (h.dots_dir hb hab)
      exact ⟨a, b, hothers hb hab hji⟩

/-- A directory that goes to a place inside itself is cut off. -/
theorem WellFormed.cut_off (k' : K) (hk : Proper dot dotdot k) (he : g.edge n k = some i)
    (hi : i ∈ g.dir) (hn' : n' ∈ g.dir) (hin : Below dot dotdot g i n') :
    ¬ Below dot dotdot (g.move dotdot n k n' k' i) root i := by
  have hroot := h.ne_root hk he hi
  -- from the root one never comes to a directory that was inside
  have hnever : ∀ {m}, Below dot dotdot (g.move dotdot n k n' k' i) root m → m ∈ g.dir →
      ¬ Below dot dotdot g i m := by
    intro m hm
    induction hm with
    | refl => exact fun _ => h.not_below_root hroot
    | @tail a j _ hchild ih =>
      intro hj hij
      obtain ⟨b, hb, hab⟩ := hchild
      rw [edge_move hb.2] at hab
      split_ifs at hab with h1 h2
      · exact ih (h1.1 ▸ hn') (h1.1 ▸ hin)
      · rcases h.below_parent hb hab hj hij with rfl | hia
        · exact h2 (h.only_name hk he hi hb hab)
        · exact ih (h.edge_dir hab) hia
  exact fun hm => hnever hm hi .refl

end move

end changes

end NameGraph
