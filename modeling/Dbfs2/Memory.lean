-- Memory as contents by address: reading a range, copying one range onto another, at once
-- or in units of several addresses, and ranges that lie apart.
import Mathlib.Data.List.Basic

def Memory (β : Type) : Type := Nat → β

namespace Memory

variable {β : Type}

/-- The contents of `n` addresses from `a` on. -/
def read (m : Memory β) (a n : Nat) : List β := (List.range n).map fun i => m (a + i)

/-- `n` addresses from `dest` on get the contents of those from `src` on. -/
def copy (m : Memory β) (src dest n : Nat) : Memory β := fun a =>
  if dest ≤ a ∧ a < dest + n then m (src + (a - dest)) else m a

/-- A copy in `n` units of width `w`, one after the other. -/
def copy_units (w : Nat) : Memory β → Nat → Nat → Nat → Memory β
  | m, _, _, 0 => m
  | m, src, dest, n + 1 => copy_units w (m.copy src dest w) (src + w) (dest + w) n

/-- Two ranges that do not meet. -/
def Apart (a n b k : Nat) : Prop := a + n ≤ b ∨ b + k ≤ a

/-- Parts of ranges that lie apart lie apart. -/
theorem Apart.part {a n b k a' n' b' k' : Nat} (h : Apart a n b k) (ha : a ≤ a')
    (hn : a' + n' ≤ a + n) (hb : b ≤ b') (hk : b' + k' ≤ b + k) : Apart a' n' b' k' := by
  unfold Apart at h ⊢
  omega

section read

variable (m : Memory β) (a n : Nat)

@[simp]
theorem length_read : (m.read a n).length = n := by simp [read]

theorem read_add (i j : Nat) : m.read a (i + j) = m.read a i ++ m.read (a + i) j := by
  simp only [read, List.range_add, List.map_append, List.map_map, Function.comp_def, Nat.add_assoc]

theorem take_read {i : Nat} (h : i ≤ n) : (m.read a n).take i = m.read a i := by
  obtain ⟨j, rfl⟩ := Nat.exists_eq_add_of_le h
  rw [read_add, List.take_left' (length_read ..)]

theorem drop_read {i : Nat} (h : i ≤ n) : (m.read a n).drop i = m.read (a + i) (n - i) := by
  obtain ⟨j, rfl⟩ := Nat.exists_eq_add_of_le h
  rw [read_add, List.drop_left' (length_read ..), Nat.add_sub_cancel_left]

variable {m a n}

theorem read_congr {m' : Memory β} (h : ∀ i < n, m' (a + i) = m (a + i)) :
    m'.read a n = m.read a n := by
  refine List.map_congr_left fun i hi => h i (List.mem_range.mp hi)

end read

section copy

variable {m : Memory β} {src dest n a k : Nat}

theorem read_copy : (m.copy src dest n).read dest n = m.read src n := by
  refine List.map_congr_left fun i hi => ?_
  rw [List.mem_range] at hi
  rw [copy, if_pos (by omega), Nat.add_sub_cancel_left]

theorem read_copy_apart (h : Apart a k dest n) : (m.copy src dest n).read a k = m.read a k := by
  refine read_congr fun i hi => if_neg ?_
  unfold Apart at h
  omega

/-- Where the ranges lie apart, units one after the other do what one copy does. -/
theorem copy_units_eq (w : Nat) (h : Apart src (n * w) dest (n * w)) :
    m.copy_units w src dest n = m.copy src dest (n * w) := by
  induction n generalizing m src dest with
  | zero =>
    funext a
    rw [copy, if_neg (by omega)]
    rfl
  | succ n ih =>
    rw [Nat.succ_mul] at h ⊢
    have hrest : Apart (src + w) (n * w) (dest + w) (n * w) := by
      unfold Apart at h ⊢
      omega
    rw [copy_units, ih hrest]
    funext a
    simp only [copy]
    unfold Apart at h
    -- an address lies in the later units, in the first one, or outside
    by_cases hlater : dest + w ≤ a ∧ a < dest + w + n * w
    · rw [if_pos hlater, if_neg (by omega), if_pos (by omega)]
      congr 1
      omega
    · rw [if_neg hlater]
      by_cases hfirst : dest ≤ a ∧ a < dest + w
      · rw [if_pos hfirst, if_pos (by omega)]
      · rw [if_neg hfirst, if_neg (by omega)]

end copy

end Memory
