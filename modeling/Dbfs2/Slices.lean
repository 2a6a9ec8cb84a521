-- Long sequences cut into slices of one size, some of which may be absent. A write
-- touches the slices between its two ends; what it does not cover of a slice stays,
-- or is whatever the slice was made with when there was none.
import Mathlib.Data.List.Basic
import Mathlib.Logic.Function.Basic
import Mathlib.Tactic.Ring

namespace Slices

variable {α : Type}

/-! ## One slice -/

/-- A list with a chunk laid over it from a position on. -/
def overlay (base : List α) (pos : Nat) (chunk : List α) : List α :=
  base.take pos ++ chunk ++ base.drop (pos + chunk.length)

theorem length_overlay {base chunk : List α} {pos : Nat} (h : pos ≤ base.length) :
    (overlay base pos chunk).length = max base.length (pos + chunk.length) := by
  simp only [overlay, List.length_append, List.length_take, List.length_drop]
  omega

theorem length_overlay_of_fits {base chunk : List α} {pos : Nat}
    (h : pos + chunk.length ≤ base.length) : (overlay base pos chunk).length = base.length := by
  rw [length_overlay (by omega), Nat.max_eq_left h]

theorem getElem?_overlay {base chunk : List α} {pos : Nat} (h : pos ≤ base.length) (j : Nat) :
    (overlay base pos chunk)[j]? =
      if pos ≤ j ∧ j < pos + chunk.length then chunk[j - pos]? else base[j]? := by
  unfold overlay
  have hlen : (base.take pos).length = pos := by
    rw [List.length_take]
    omega
  rw [List.append_assoc, List.getElem?_append, List.getElem?_append, hlen, List.getElem?_drop,
    List.getElem?_take]
  split_ifs with h1 h2 h3 h3 h2
  · omega
  · rfl
  · rfl
  · omega
  · omega
  · congr 1
    omega

/-- Two chunks that lie one behind the other. -/
theorem overlay_append {base a b : List α} {pos : Nat} (h : pos ≤ base.length) :
    overlay (overlay base pos a) (pos + a.length) b = overlay base pos (a ++ b) := by
  have hlen : (base.take pos ++ a).length = pos + a.length := by
    rw [List.length_append, List.length_take]
    omega
  unfold overlay
  rw [List.take_left' hlen, ← List.drop_drop, List.drop_left' hlen, List.drop_drop,
    List.length_append, List.append_assoc _ a b, Nat.add_assoc]

/-- A chunk of the full size hides what was there. -/
theorem overlay_full {base chunk : List α} (h : base.length ≤ chunk.length) :
    overlay base 0 chunk = chunk := by
  simp [overlay, h]

/-! ## All slices -/

/-- The element at a position, when its slice is there. -/
def get (S : Nat) (f : Nat → Option (List α)) (p : Nat) : Option α := (f (p / S)).bind (·[p % S]?)

/-- Every slice that is there has its full size. -/
def Whole (S : Nat) (f : Nat → Option (List α)) : Prop := ∀ i v, f i = some v → v.length = S

theorem Whole.update {S : Nat} {f : Nat → Option (List α)} (hf : Whole S f) (i : Nat) {v : List α}
    (hv : v.length = S) : Whole S (Function.update f i (some v)) := by
  intro j w hw
  by_cases hj : j = i
  · subst hj
    rw [Function.update_self] at hw
    cases hw
    exact hv
  · rw [Function.update_of_ne hj] at hw
    exact hf j w hw

/-- Slice `i` is one of those that a write of `len` elements at `o` goes to. The slice of `o`
itself always is. -/
def Touched (S o len i : Nat) : Prop := o / S ≤ i ∧ (i = o / S ∨ i * S < o + len)

instance (S o len i : Nat) : Decidable (Touched S o len i) :=
  inferInstanceAs (Decidable (_ ∧ _))

/-- The part of a buffer written at `o` that falls into slice `i`. -/
def part (S o : Nat) (buf : List α) (i : Nat) : List α :=
  (buf.drop (i * S - o)).take (S - (o - i * S))

/-- The slices after a write; `scratch` is what new slices are made with. -/
def write (S o : Nat) (buf : List α) (scratch : Nat → List α) (f : Nat → Option (List α)) :
    Nat → Option (List α) := fun i =>
  if Touched S o buf.length i then
    some (overlay ((f i).getD (scratch i)) (o - i * S) (part S o buf i))
  else f i

section

variable {S : Nat} (hS : 0 < S)

include hS

/-- The position of the element `j` of slice `i`. -/
theorem pos_eq {p i j : Nat} (hi : p / S = i) (hj : p % S = j) : p = i * S + j ∧ j < S := by
  subst hi hj
  refine ⟨?_, Nat.mod_lt _ hS⟩
  rw [Nat.mul_comm]
  exact (Nat.div_add_mod p S).symm

omit hS in
theorem get_pos (f : Nat → Option (List α)) (i : Nat) {j : Nat} (hj : j < S) :
    get S f (i * S + j) = (f i).bind (·[j]?) := by
  have hS : 0 < S := by omega
  rw [get, Nat.mul_comm, Nat.mul_add_div hS, Nat.div_eq_of_lt hj, Nat.add_zero, Nat.mul_add_mod,
    Nat.mod_eq_of_lt hj]

omit hS in
theorem touched_of_mem {o len p : Nat} (h1 : o ≤ p) (h2 : p < o + len) :
    Touched S o len (p / S) := by
  refine ⟨Nat.div_le_div_right h1, .inr ?_⟩
  have := Nat.div_mul_le_self p S
  omega

/-- The slice of a position ends after it. -/
theorem lt_of_div_le {o i : Nat} (h : o / S ≤ i) : o < i * S + S := by
  obtain ⟨ho, hj⟩ := pos_eq hS (p := o) rfl rfl
  have := Nat.mul_le_mul_right S h
  omega

omit hS in
theorem getElem?_part (S o : Nat) (buf : List α) (i k : Nat) : (part S o buf i)[k]? =
    if k < S - (o - i * S) then buf[i * S - o + k]? else none := by
  rw [part, List.getElem?_take, List.getElem?_drop]

omit hS in
theorem length_part (S o : Nat) (buf : List α) (i : Nat) : (part S o buf i).length =
    min (S - (o - i * S)) (buf.length - (i * S - o)) := by
  rw [part, List.length_take, List.length_drop]

theorem part_fits (o : Nat) (buf : List α) {i : Nat} (h : o / S ≤ i) :
    o - i * S + (part S o buf i).length ≤ S := by
  have hlt := lt_of_div_le hS h
  rw [length_part]
  omega

variable {o : Nat} {buf : List α} {scratch : Nat → List α} {f : Nat → Option (List α)}
  (hf : Whole S f) (hs : ∀ i, (scratch i).length = S)

include hf hs

omit hS in
theorem length_base (i : Nat) : ((f i).getD (scratch i)).length = S := by
  rcases hfi : f i with _ | v
  · exact hs i
  · exact hf i v hfi

theorem whole_write : Whole S (write S o buf scratch f) := by
  intro i v hv
  unfold write at hv
  split_ifs at hv with ht
  · cases hv
    have hbase := length_base hf hs i
    rw [length_overlay_of_fits, hbase]
    rw [hbase]
    exact part_fits hS o buf ht.1
  · exact hf i v hv

/-- A write puts its buffer where it says. In the slices it touches it keeps what was there,
or leaves what the slice was made with. -/
theorem get_write (p : Nat) : get S (write S o buf scratch f) p =
    if o ≤ p ∧ p < o + buf.length then buf[p - o]?
    else if Touched S o buf.length (p / S) then
      ((f (p / S)).getD (scratch (p / S)))[p % S]?
    else get S f p := by
  obtain ⟨hp, hj⟩ := pos_eq hS (p := p) rfl rfl
  by_cases ht : Touched S o buf.length (p / S)
  · have hlt := lt_of_div_le hS ht.1
    have hfit := part_fits hS o buf ht.1
    have hlen := length_part S o buf (p / S)
    rw [get, write, if_pos ht, Option.bind_some, getElem?_overlay, getElem?_part, if_pos ht]
    · generalize p / S * S = q at hp hlt hfit hlen ⊢
      generalize p % S = j at hp hj ⊢
      by_cases hin : o ≤ p ∧ p < o + buf.length
      · rw [if_pos hin, if_pos (by omega), if_pos (by omega)]
        congr 1
        omega
      · rw [if_neg hin, if_neg (by omega)]
    · rw [length_base hf hs]
      omega
  · rw [if_neg (fun h => ht (touched_of_mem h.1 h.2)), if_neg ht]
    unfold get write
    rw [if_neg ht]

omit hf hs in
/-- A write of nothing stores the slice of its offset, if it is not there. -/
theorem write_nil_eq_iff : write S o [] scratch f = f ↔ (f (o / S)).isSome := by
  constructor
  · intro h
    rw [← h, write, if_pos ⟨le_refl _, .inl rfl⟩]
    rfl
  · intro hsome
    obtain ⟨v, hv⟩ := Option.isSome_iff_exists.mp hsome
    funext i
    unfold write
    split_ifs with ht
    · have hi : i = o / S := by
        rcases ht with ⟨h1, h2 | h2⟩
        · exact h2
        · have := lt_of_div_le hS h1
          exact Nat.le_antisymm ((Nat.le_div_iff_mul_le hS).mpr (Nat.le_of_lt h2)) h1
      rw [hi, hv]
      simp [overlay, part]
    · rfl

omit hf hs in
theorem part_first (o : Nat) (buf : List α) : o - o / S * S = o % S ∧
    part S o buf (o / S) = buf.take (S - o % S) := by
  obtain ⟨ho, _⟩ := pos_eq hS (p := o) rfl rfl
  have hstart : o - o / S * S = o % S := by omega
  have hzero : o / S * S - o = 0 := by omega
  rw [part, hstart, hzero, List.drop_zero]
  exact ⟨rfl, rfl⟩

omit hf hs in
/-- A write is a write to its first slice, followed by a write of the rest from the next
slice on. -/
theorem write_step : write S o buf scratch f =
    if buf.length ≤ S - o % S then
      Function.update f (o / S) (some (overlay ((f (o / S)).getD (scratch (o / S))) (o % S)
        (buf.take (S - o % S))))
    else
      write S ((o / S + 1) * S) (buf.drop (S - o % S)) scratch
        (Function.update f (o / S) (some (overlay ((f (o / S)).getD (scratch (o / S))) (o % S)
          (buf.take (S - o % S))))) := by
  obtain ⟨ho, hmod⟩ := pos_eq hS (p := o) rfl rfl
  obtain ⟨hstart, hpart⟩ := part_first hS o buf
  have hnext : (o / S + 1) * S = o / S * S + S := by rw [Nat.add_mul, Nat.one_mul]
  have hdiv : (o / S + 1) * S / S = o / S + 1 := Nat.mul_div_cancel _ hS
  have hfirst : Touched S o buf.length (o / S) := ⟨le_refl _, .inl rfl⟩
  -- a slice after the first one starts at the end of the first one or later
  have hlater : ∀ {i}, o / S + 1 ≤ i → o / S * S + S ≤ i * S := by
    intro i hi
    have := Nat.mul_le_mul_right S hi
    omega
  funext i
  split_ifs with hlen
  · by_cases hi : i = o / S
    · subst hi
      rw [write, if_pos hfirst, Function.update_self, hstart, hpart]
    · rw [write, Function.update_of_ne hi, if_neg]
      rintro ⟨h1, h2 | h2⟩
      · exact hi h2
      · have := hlater (i := i) (by omega)
        omega
  · rcases lt_trichotomy i (o / S) with hi | hi | hi
    · rw [write, write, if_neg (fun h => by have := h.1; omega), if_neg,
        Function.update_of_ne (by omega)]
      intro h
      have := h.1
      omega
    · subst hi
      rw [write, write, if_pos hfirst, if_neg, Function.update_self, hstart, hpart]
      intro h
      have := h.1
      omega
    · have hq := hlater (i := i) (by omega)
      have htouched : Touched S ((o / S + 1) * S) (buf.drop (S - o % S)).length i ↔
          Touched S o buf.length i := by
        unfold Touched
        rw [hdiv, hnext, List.length_drop]
        constructor
        · rintro ⟨h1, h2 | h2⟩
          · refine ⟨by omega, .inr ?_⟩
            rw [h2, hnext]
            omega
          · exact ⟨by omega, .inr (by omega)⟩
        · rintro ⟨h1, h2 | h2⟩
          · omega
          · exact ⟨by omega, .inr (by omega)⟩
      have hsame : part S ((o / S + 1) * S) (buf.drop (S - o % S)) i = part S o buf i := by
        unfold part
        rw [hnext, List.drop_drop]
        congr 2
        · omega
        · omega
      rw [write, write, Function.update_of_ne (by omega), hsame]
      simp only [htouched]
      congr 3
      omega

end

/-! ## Cutting off the end -/

/-- The slices after a sequence that was thought to have `size` elements is cut, or filled up,
to `m` elements. Slices past the cut go, up to the one of `size`; the rest of the slice of the
cut is set to `zero`. Nothing happens when the cut is in a later slice. -/
def cut (S : Nat) (zero : α) (size m : Nat) (f : Nat → Option (List α)) : Nat → Option (List α) :=
  fun i =>
    if size / S < m / S then f i
    else if m / S < i ∧ i ≤ size / S then none
    else if i = m / S then
      (f i).map fun v => v.take (m % S) ++ List.replicate (S - m % S) zero
    else f i

section

variable {S : Nat} (hS : 0 < S) {zero : α} {size m : Nat} {f : Nat → Option (List α)}

include hS

theorem whole_cut (hf : Whole S f) : Whole S (cut S zero size m f) := by
  intro i v hv
  unfold cut at hv
  split_ifs at hv with hlater hgone hlast
  · exact hf i v hv
  · obtain ⟨w, hw, rfl⟩ := Option.map_eq_some_iff.mp hv
    have hlen := hf i w hw
    have hlt := Nat.mod_lt m hS
    rw [List.length_append, List.length_take, List.length_replicate]
    omega
  · exact hf i v hv

/-- What stands before the cut stays. -/
theorem get_cut_of_lt (hf : Whole S f) {p : Nat} (hp : p < m) :
    get S (cut S zero size m f) p = get S f p := by
  have hle : p / S ≤ m / S := Nat.div_le_div_right (Nat.le_of_lt hp)
  unfold get cut
  split_ifs with hlater hgone hlast
  · rfl
  · omega
  · obtain ⟨hpos, _⟩ := pos_eq hS (p := p) hlast rfl
    obtain ⟨hm, hmod⟩ := pos_eq hS (p := m) rfl rfl
    rcases hv : f (p / S) with _ | v
    · rfl
    · have hlen := hf _ v hv
      rw [Option.map_some, Option.bind_some, Option.bind_some, List.getElem?_append_left,
        List.getElem?_take, if_pos (by omega)]
      rw [List.length_take]
      omega
  · rfl

omit hS in
/-- What a cut leaves is what was there, or `zero`. -/
theorem get_cut (p : Nat) : get S (cut S zero size m f) p = get S f p ∨
    get S (cut S zero size m f) p = none ∨ get S (cut S zero size m f) p = some zero := by
  unfold get cut
  split_ifs with hlater hgone hlast
  · exact .inl rfl
  · exact .inr (.inl rfl)
  · rcases f (p / S) with _ | v
    · exact .inl rfl
    · rw [Option.map_some, Option.bind_some, Option.bind_some, List.getElem?_append,
        List.getElem?_take, List.getElem?_replicate]
      split_ifs with h1 h2 h3
      · exact .inl rfl
      · exact .inr (.inl rfl)
      · exact .inr (.inr rfl)
      · exact .inr (.inl rfl)
  · exact .inl rfl

/-- Behind the cut there is nothing but `zero`, where no slice stood behind the old end. -/
theorem get_cut_of_le (hbehind : ∀ i, size / S < i → f i = none) (hm : m ≤ size) {p : Nat}
    (hp : m ≤ p) :
    get S (cut S zero size m f) p = none ∨ get S (cut S zero size m f) p = some zero := by
  have hmod := Nat.mod_lt p hS
  have hle : m / S ≤ size / S := Nat.div_le_div_right hm
  have hmp : m / S ≤ p / S := Nat.div_le_div_right hp
  unfold get cut
  rw [if_neg (not_lt.mpr hle)]
  split_ifs with hgone hlast
  · exact .inl rfl
  · obtain ⟨hpos, _⟩ := pos_eq hS (p := p) hlast rfl
    obtain ⟨hpos', _⟩ := pos_eq hS (p := m) rfl rfl
    rcases f (p / S) with _ | v
    · exact .inl rfl
    · rw [Option.map_some, Option.bind_some, List.getElem?_append, List.length_take,
        List.getElem?_replicate, if_neg (by omega)]
      split_ifs
      · exact .inr rfl
      · exact .inl rfl
  · rw [hbehind _ (by omega)]
    exact .inl rfl

omit hS in
/-- A cut stores no new slice. -/
theorem cut_eq_none {i : Nat} (h : f i = none) : cut S zero size m f i = none := by
  unfold cut
  split_ifs <;> simp [h]

/-- A slice that begins before the new end stays. -/
theorem cut_isSome {i : Nat} {v : List α} (h : f i = some v) (hi : i * S < m) :
    ∃ w, cut S zero size m f i = some w := by
  have hle : i ≤ m / S := (Nat.le_div_iff_mul_le hS).mpr (Nat.le_of_lt hi)
  unfold cut
  split_ifs with _ hgone
  · exact ⟨v, h⟩
  · omega
  · exact ⟨_, by rw [h, Option.map_some]⟩
  · exact ⟨v, h⟩

end

end Slices
