-- Graphs of names with a size for every directory that is at least the number of its
-- entries. Sizes may run ahead of the entries, so less is kept than in a well-formed
-- graph, but a directory whose size is that of its dots has no other entry.
import Dbfs2.NameGraph

namespace NameGraph

variable {I K : Type} {dot dotdot : K} {root : I} {g : NameGraph I K} {size : I → Nat}

/-- The directories have their dots and no more entries than their sizes say, and the root, which
has one dot less, has no name. -/
structure Tally (dot dotdot : K) (root : I) (g : NameGraph I K) (size : I → Nat) : Prop where
  finite : g.Finite
  edge_dir {n i : I} {k : K} : g.edge n k = some i → n ∈ g.dir
  root_dir : root ∈ g.dir
  unnamed {n : I} {k : K} : Proper dot dotdot k → g.edge n k ≠ some root
  self {n : I} : n ∈ g.dir → g.edge n dot ≠ none
  parent {n : I} : n ∈ g.dir → n ≠ root → g.edge n dotdot ≠ none
  count {n : I} : n ∈ g.dir → g.size n ≤ size n

namespace Tally

/-- A directory whose size is at most two has its dots alone. -/
theorem only_dots (h : Tally dot dotdot root g size) (hd : dot ≠ dotdot) {n : I} (hn : n ∈ g.dir)
    (hroot : n ≠ root) (hsize : size n ≤ 2) {k : K} (hk : g.edge n k ≠ none) :
    k = dot ∨ k = dotdot :=
  edge_of_size_le_two h.finite hd (h.self hn) (h.parent hn hroot) ((h.count hn).trans hsize) hk

theorem size_pos (h : Tally dot dotdot root g size) {n : I} (hn : n ∈ g.dir) : 1 ≤ size n := by
  refine le_trans ?_ (h.count hn)
  exact (Set.ncard_pos (h.finite.keys n)).mpr ⟨dot, h.self hn⟩

/-- Nodes do not matter, and sizes may grow. -/
theorem mono (h : Tally dot dotdot root g size) (N : Set I) {size' : I → Nat}
    (hle : ∀ n ∈ g.dir, size n ≤ size' n) : Tally dot dotdot root { g with node := N } size' :=
  ⟨h.finite, h.edge_dir, h.root_dir, h.unnamed, h.self, h.parent, fun hn =>
    (h.count hn).trans (hle _ hn)⟩

variable [DecidableEq I] [DecidableEq K]

/-- An entry for something other than the root; only a new one counts. -/
theorem bind (h : Tally dot dotdot root g size) {n i : I} {k : K} {size' : I → Nat}
    (hn : n ∈ g.dir) (hi : Proper dot dotdot k → i ≠ root) (hle : ∀ m ∈ g.dir, size m ≤ size' m)
    (hnew : g.edge n k = none → size n + 1 ≤ size' n) :
    Tally dot dotdot root (g.set n k (some i)) size' where
  finite := h.finite.set n k _
  edge_dir {a j b} he := by
    rw [edge_set] at he
    split_ifs at he with hab
    · exact hab.1 ▸ hn
    · exact h.edge_dir he
  root_dir := h.root_dir
  unnamed {a b} hb := by
    rw [edge_set]
    split_ifs with hab
    · exact fun e => hi (hab.2 ▸ hb) (Option.some.inj e)
    · exact h.unnamed hb
  self {a} ha := by
    rw [edge_set]
    split_ifs
    · simp
    · exact h.self ha
  parent {a} ha hroot := by
    rw [edge_set]
    split_ifs
    · simp
    · exact h.parent ha hroot
  count {a} ha := by
    have hcount := h.count ha
    have hle := hle a ha
    by_cases han : a = n
    · subst han
      have hset := size_set h.finite a k (some i)
      rw [if_neg (Option.some_ne_none i)] at hset
      split_ifs at hset with hfree
      · have := hnew hfree
        omega
      · omega
    · rw [size_set_ne g k _ han]
      exact hcount.trans hle

/-- An entry other than the dots taken away. -/
theorem unbind (h : Tally dot dotdot root g size) {n : I} {k : K} {size' : I → Nat}
    (hk : Proper dot dotdot k) (he : g.edge n k ≠ none)
    (hle : ∀ m ∈ g.dir, m ≠ n → size m ≤ size' m) (hless : size n ≤ size' n + 1) :
    Tally dot dotdot root (g.set n k none) size' where
  finite := h.finite.set n k _
  edge_dir {a j b} hab := by
    rw [edge_set] at hab
    split_ifs at hab
    exact h.edge_dir hab
  root_dir := h.root_dir
  unnamed {a b} hb := by
    rw [edge_set]
    split_ifs
    · simp
    · exact h.unnamed hb
  self {a} ha := by
    rw [edge_set, if_neg (fun e => hk.1 e.2.symm)]
    exact h.self ha
  parent {a} ha hroot := by
    rw [edge_set, if_neg (fun e => hk.2 e.2.symm)]
    exact h.parent ha hroot
  count {a} ha := by
    have hcount := h.count ha
    by_cases han : a = n
    · subst han
      have hset := size_set h.finite a k none
      rw [if_neg he, if_pos rfl] at hset
      omega
    · rw [size_set_ne g k _ han]
      exact hcount.trans (hle a ha han)

/-- An entry and what it named taken away, the root apart. -/
theorem removeDir (h : Tally dot dotdot root g size) {n i : I} {k : K} {size' : I → Nat}
    (hk : Proper dot dotdot k) (he : g.edge n k = some i)
    (hle : ∀ m ∈ g.dir, m ≠ n → m ≠ i → size m ≤ size' m) (hless : n ≠ i → size n ≤ size' n + 1) :
    Tally dot dotdot root (removeDir g n k i) size' := by
  have hset : Tally dot dotdot root (g.set n k none)
      (fun m => if m = i then size m else size' m) := by
    refine h.unbind hk (by rw [he]; simp) (fun m hm hmn => ?_) ?_
    · split_ifs with hmi
      · exact le_rfl
      · exact hle m hm hmn hmi
    · split_ifs with hni
      · exact Nat.le_succ _
      · exact hless hni
  have hroot : root ≠ i := by
    rintro rfl
    exact h.unnamed hk he
  have hedge : ∀ a b, (NameGraph.removeDir g n k i).edge a b =
      if a = i then none else (g.set n k none).edge a b := fun a b => rfl
  exact
    { finite := by
        refine hset.finite.subset ?_
        intro p hp
        have hp : (NameGraph.removeDir g n k i).edge p.1 p.2 ≠ none := hp
        rw [hedge] at hp
        split_ifs at hp
        · exact absurd rfl hp
        · exact hp
      edge_dir := fun {a j b} hab => by
        rw [hedge] at hab
        split_ifs at hab with hai
        exact ⟨hset.edge_dir hab, hai⟩
      root_dir := ⟨h.root_dir, hroot⟩
      unnamed := fun {a b} hb => by
        rw [hedge]
        split_ifs
        · simp
        · exact hset.unnamed hb
      self := by
        rintro a ⟨ha, (hai : a ≠ i)⟩
        rw [hedge, if_neg hai]
        exact hset.self ha
      parent := by
        rintro a ⟨ha, (hai : a ≠ i)⟩ har
        rw [hedge, if_neg hai]
        exact hset.parent ha har
      count := by
        rintro a ⟨ha, (hai : a ≠ i)⟩
        have hcount := hset.count ha
        rw [if_neg hai] at hcount
        rw [size_removeDir g k hai]
        exact hcount }

/-- A new directory with its dots. -/
theorem addDir (h : Tally dot dotdot root g size) (hd : dot ≠ dotdot) {n i : I} {k : K}
    {size' : I → Nat} (hn : n ∈ g.dir) (hi : i ∉ g.dir)
    (hle : ∀ m ∈ g.dir, size m ≤ size' m) (hnew : size n + 1 ≤ size' n) (htwo : 2 ≤ size' i) :
    Tally dot dotdot root (addDir dot dotdot g n k i) size' := by
  have hroot : i ≠ root := fun e => hi (e ▸ h.root_dir)
  have hbind := h.bind (k := k) (i := i) hn (fun _ => hroot) hle (fun _ => hnew)
  have hempty : ∀ b, (g.set n k (some i)).edge i b = none := by
    intro b
    rcases hb : (g.set n k (some i)).edge i b with _ | j
    · rfl
    · exact absurd (hbind.edge_dir hb) hi
  have hedge : ∀ a b, (NameGraph.addDir dot dotdot g n k i).edge a b =
      if a = i ∧ b = dotdot then some n else if a = i ∧ b = dot then some i
      else (g.set n k (some i)).edge a b := fun a b => rfl
  have hold : ∀ a b, a ≠ i → (NameGraph.addDir dot dotdot g n k i).edge a b =
      (g.set n k (some i)).edge a b := by
    intro a b hai
    rw [hedge, if_neg (fun e => hai e.1), if_neg (fun e => hai e.1)]
  exact
    { finite := (hbind.finite.set i dot (some i)).set i dotdot (some n)
      edge_dir := fun {a j b} hab => by
        by_cases hai : a = i
        · exact .inl hai
        · rw [hold a b hai] at hab
          exact .inr (hbind.edge_dir hab)
      root_dir := .inr h.root_dir
      unnamed := fun {a b} hb => by
        rw [hedge, if_neg (fun e => hb.2 e.2), if_neg (fun e => hb.1 e.2)]
        exact hbind.unnamed hb
      self := by
        rintro a (rfl | ha)
        · rw [hedge, if_neg (fun e => hd e.2), if_pos ⟨rfl, rfl⟩]
          simp
        · rw [hold a dot (fun e => hi (e ▸ ha))]
          exact hbind.self ha
      parent := by
        rintro a (rfl | ha) har
        · rw [hedge, if_pos ⟨rfl, rfl⟩]
          simp
        · rw [hold a dotdot (fun e => hi (e ▸ ha))]
          exact hbind.parent ha har
      count := by
        rintro a (rfl | ha)
        · have hkeys : (NameGraph.addDir dot dotdot g n k a).keys a ⊆ {dot, dotdot} := by
            intro b hb
            by_contra hne
            simp only [Set.mem_insert_iff, Set.mem_singleton_iff, not_or] at hne
            have hb : (NameGraph.addDir dot dotdot g n k a).edge a b ≠ none := hb
            rw [hedge, if_neg (fun e => hne.2 e.2), if_neg (fun e => hne.1 e.2)] at hb
            exact hb (hempty b)
          calc (NameGraph.addDir dot dotdot g n k a).size a ≤ ({dot, dotdot} : Set K).ncard :=
                Set.ncard_le_ncard hkeys
            _ = 2 := Set.ncard_pair hd
            _ ≤ size' a := htwo
        · have hai : a ≠ i := fun e => hi (e ▸ ha)
          have hkeys : (NameGraph.addDir dot dotdot g n k i).keys a =
              (g.set n k (some i)).keys a := by
            ext b
            simp only [keys, Set.mem_ofPred_eq, hold a b hai]
          rw [NameGraph.size, hkeys]
          exact hbind.count ha }

end Tally

end NameGraph
