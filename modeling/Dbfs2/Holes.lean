-- Reading files with holes. A walk over the stored slices lays down the slices of a
-- gap as zeros; after a gap it counts one slice too far, so that a second gap loses a
-- slice and what comes after it is read in the wrong place.
import Dbfs2.FileRead
import Dbfs2.Scratch
import Mathlib.Data.List.Sort

namespace dbfs2

open common Tx inode file

/-! ## Rows of slices -/

/-- Zeros, and nothing else. -/
def Zeros (v : Bytes) : Prop := ∀ b ∈ v, b = 0

theorem Zeros.replicate (n : Nat) : Zeros (List.replicate n 0) := fun _ hb =>
  List.eq_of_mem_replicate hb

theorem Zeros.take {v : Bytes} (h : Zeros v) (n : Nat) : Zeros (v.take n) := fun b hb =>
  h b (List.mem_of_mem_take hb)

/-- Of two rows of zeros the shorter one is the beginning of the other. -/
theorem Zeros.prefix_of_length {v w : Bytes} (hv : Zeros v) (hw : Zeros w)
    (h : v.length ≤ w.length) : v <+: w := by
  rw [List.eq_replicate_of_mem hv, List.eq_replicate_of_mem hw]
  exact ⟨List.replicate (w.length - v.length) 0, by
    rw [← List.replicate_add, Nat.add_sub_of_le h]⟩

section rows

variable {E : Nat → Bytes} {S : Nat}

/-- Where a row of slices comes one or more places too early and the first place is a hole, all
of them must be zeros to agree with what is due there. -/
theorem zeros_of_early {row : List Nat} {i n : Nat} (hsorted : row.Pairwise (· < ·))
    (hgt : ∀ r ∈ row, i < r) (hzero : ∀ r ∈ row, ∀ m, i ≤ m → m < r → m ∉ row → Zeros (E m))
    (hlen : ∀ m, (E m).length ≤ S) (hfull : ∀ r ∈ row, ∀ m < r, (E m).length = S)
    (h : row.flatMap E <+: (List.range' i n).flatMap E) : ∀ r ∈ row, Zeros (E r) := by
  induction row generalizing i n with
  | nil => simp
  | cons r row ih =>
    rw [List.pairwise_cons] at hsorted
    have hir := hgt r List.mem_cons_self
    have hi : Zeros (E i) := hzero r List.mem_cons_self i (le_refl i) hir fun hmem => by
      have := hgt i hmem
      omega
    cases n with
    | zero =>
      intro r' hr' b hb
      have hmem : b ∈ (r :: row).flatMap E := List.mem_flatMap.mpr ⟨r', hr', hb⟩
      rw [List.prefix_nil.mp h] at hmem
      cases hmem
    | succ n =>
      rw [List.range'_succ, List.flatMap_cons, List.flatMap_cons] at h
      have hiS := hfull r List.mem_cons_self i hir
      have hpre : E r <+: E i := List.prefix_of_prefix_length_le
        ((List.prefix_append _ _).trans h) (List.prefix_append _ _) (by rw [hiS]; exact hlen r)
      have hr : Zeros (E r) := fun b hb => hi b (hpre.subset hb)
      intro r' hr'
      rcases List.mem_cons.mp hr' with rfl | hr'
      · exact hr
      · -- a slice that is followed by another one is whole
        have hrS := hfull r' (List.mem_cons_of_mem _ hr') r (hsorted.1 r' hr')
        rw [hpre.eq_of_length (by rw [hrS, hiS]), List.prefix_append_right_inj] at h
        refine ih hsorted.2 (fun q hq => ?_) (fun q hq m hm hmq hmem => ?_)
          (fun q hq => hfull q (List.mem_cons_of_mem _ hq)) h r' hr'
        · have := hsorted.1 q hq
          omega
        · by_cases hmr : m = r
          · exact hmr ▸ hr
          · exact hzero q (List.mem_cons_of_mem _ hq) m (by omega) hmq (by simp [hmr, hmem])

/-- A part of a row of zeros agrees with it. -/
theorem prefix_of_zeros {row row' : List Nat} (hsub : row.Sublist row')
    (hzero : ∀ r ∈ row', Zeros (E r)) : row.flatMap E <+: row'.flatMap E := by
  have hrow' : Zeros (row'.flatMap E) := by
    intro b hb
    obtain ⟨r, hr, hb⟩ := List.mem_flatMap.mp hb
    exact hzero r hr b hb
  have hle := (hsub.flatMap E)
  exact Zeros.prefix_of_length (fun b hb => hrow' b (hle.subset hb)) hrow' hle.length_le

end rows

/-! ## The slices that a walk lays down -/

/-- The slices that the walk over the stored ones `is` lays down, where it expects `start_num`
next. After a gap it expects the next but one. -/
def laid_out : List Nat → Nat → List Nat
  | [], _ => []
  | i :: is, start_num =>
    if i = start_num then i :: laid_out is (i + 1)
    else List.range' start_num (i - start_num) ++ i :: laid_out is (i + 2)

/-- The numbers of the stored ones among `len` slices from `first` on. -/
def present (f : Nat → Option Bytes) (first len : Nat) : List Nat :=
  (List.range' first len).filter fun i => (f i).isSome

section layout

variable {f : Nat → Option Bytes}

theorem present_some {i k : Nat} {v : Bytes} (hv : f i = some v) :
    present f i (k + 1) = i :: present f (i + 1) k := by
  simp [present, List.range'_succ, hv]

theorem present_none {i k : Nat} (hv : f i = none) :
    present f i (k + 1) = present f (i + 1) k := by
  simp [present, List.range'_succ, hv]

theorem mem_present {i k j : Nat} :
    j ∈ present f i k ↔ (i ≤ j ∧ j < i + k) ∧ (f j).isSome := by
  simp [present, List.mem_range'_1]

theorem present_sorted (f : Nat → Option Bytes) (i k : Nat) :
    (present f i k).Pairwise (· < ·) :=
  (List.pairwise_lt_range' (s := i) (n := k)).filter _

theorem le_of_mem_laid_out {is : List Nat} {lo s : Nat} (hlo : ∀ j ∈ is, lo ≤ j) (hs : lo ≤ s) :
    ∀ r ∈ laid_out is s, lo ≤ r := by
  induction is generalizing s with
  | nil => simp [laid_out]
  | cons i is ih =>
    have hi := hlo i List.mem_cons_self
    have hrest := fun j hj => hlo j (List.mem_cons_of_mem _ hj)
    intro r hr
    rw [laid_out] at hr
    split_ifs at hr with h
    · rcases List.mem_cons.mp hr with rfl | hr
      · exact hi
      · exact ih hrest (by omega) r hr
    · rw [List.mem_append, List.mem_range'_1, List.mem_cons] at hr
      rcases hr with hr | rfl | hr
      · omega
      · exact hi
      · exact ih hrest (by omega) r hr

theorem laid_out_sorted {is : List Nat} (h : is.Pairwise (· < ·)) (s : Nat) :
    (laid_out is s).Pairwise (· < ·) := by
  induction is generalizing s with
  | nil => exact .nil
  | cons i is ih =>
    rw [List.pairwise_cons] at h
    have hlater : ∀ s, i + 1 ≤ s → ∀ r ∈ laid_out is s, i < r := fun s hs r hr =>
      le_of_mem_laid_out h.1 hs r hr
    rw [laid_out]
    split_ifs with hi
    · exact List.pairwise_cons.mpr ⟨hlater _ (le_refl _), ih h.2 _⟩
    · rw [List.pairwise_append]
      refine ⟨List.pairwise_lt_range', List.pairwise_cons.mpr ⟨hlater _ (by omega), ih h.2 _⟩, ?_⟩
      intro a ha b hb
      rw [List.mem_range'_1] at ha
      rcases List.mem_cons.mp hb with rfl | hb
      · omega
      · have := hlater _ (by omega) b hb
        omega

theorem mem_laid_out {is : List Nat} {j : Nat} (hj : j ∈ is) (s : Nat) : j ∈ laid_out is s := by
  induction is generalizing s with
  | nil => cases hj
  | cons i is ih =>
    rw [laid_out]
    rcases List.mem_cons.mp hj with rfl | hj
    · split_ifs <;> simp
    · split_ifs <;> simp [ih hj]

/-- Nothing is laid down behind the last stored slice. -/
theorem laid_out_le {is : List Nat} {s r : Nat} (hr : r ∈ laid_out is s) : ∃ j ∈ is, r ≤ j := by
  induction is generalizing s with
  | nil => cases hr
  | cons i is ih =>
    rw [laid_out] at hr
    split_ifs at hr with h
    · rcases List.mem_cons.mp hr with rfl | hr
      · exact ⟨r, List.mem_cons_self, le_refl r⟩
      · obtain ⟨j, hj, hle⟩ := ih hr
        exact ⟨j, List.mem_cons_of_mem _ hj, hle⟩
    · rw [List.mem_append, List.mem_range'_1, List.mem_cons] at hr
      rcases hr with hr | rfl | hr
      · exact ⟨i, List.mem_cons_self, by omega⟩
      · exact ⟨r, List.mem_cons_self, le_refl r⟩
      · obtain ⟨j, hj, hle⟩ := ih hr
        exact ⟨j, List.mem_cons_of_mem _ hj, hle⟩

theorem laid_out_sublist (f : Nat → Option Bytes) (i k : Nat) :
    (laid_out (present f i k) i).Sublist (List.range' i k) := by
  have hsorted := laid_out_sorted (present_sorted f i k) i
  have hsub : laid_out (present f i k) i ⊆ List.range' i k := by
    intro r hr
    have hlo := le_of_mem_laid_out (fun j hj => (mem_present.mp hj).1.1) (le_refl i) r hr
    obtain ⟨j, hj, hle⟩ := laid_out_le hr
    have := (mem_present.mp hj).1.2
    rw [List.mem_range'_1]
    omega
  exact List.sublist_of_subperm_of_pairwise (r := (· < ·))
    (List.subperm_of_subset hsorted.nodup hsub) hsorted List.pairwise_lt_range'

variable {E : Nat → Bytes} {S N : Nat}

/-- After a gap the walk is one slice ahead: it agrees with what is due as long as no other gap
comes before a stored slice, or only zeros come after it. -/
theorem ahead_iff (hnone : ∀ m, f m = none → Zeros (E m)) (hlen : ∀ m, (E m).length ≤ S)
    (hfull : ∀ m, m + 1 < N → (E m).length = S) {i k : Nat} (hN : i + k ≤ N) :
    (laid_out (present f i k) (i + 1)).flatMap E <+: (List.range' i k).flatMap E ↔
      ∀ z j, i ≤ z → z < j → j < i + k → f z = none → (f j).isSome → Zeros (E j) := by
  induction k generalizing i with
  | zero =>
    simp only [present, List.range'_zero, List.filter_nil, laid_out, List.flatMap_nil,
      List.prefix_refl, true_iff]
    intro z j _ _ _
    omega
  | succ k ih =>
    rcases hi : f i with _ | v
    · -- the slice is lost, and all that is laid down from here on comes too early
      rw [present_none hi]
      have hlo : ∀ r ∈ laid_out (present f (i + 1) k) (i + 1), i + 1 ≤ r :=
        le_of_mem_laid_out (fun j hj => (mem_present.mp hj).1.1) (le_refl _)
      constructor
      · intro h z j hz hzj hj _ hsome
        refine zeros_of_early (laid_out_sorted (present_sorted f _ _) _) hlo
          (fun r hr m him hmr hm => hnone m ?_) hlen (fun r hr m hmr => hfull m ?_) h j
          (mem_laid_out (mem_present.mpr ⟨by omega, hsome⟩) _)
        · obtain ⟨q, hq, hrq⟩ := laid_out_le hr
          have hqk := (mem_present.mp hq).1.2
          by_contra hne
          have hmi : m ≠ i := fun e => hne (e ▸ hi)
          exact hm (mem_laid_out (mem_present.mpr
            ⟨by omega, Option.isSome_iff_ne_none.mpr hne⟩) _)
        · obtain ⟨q, hq, hrq⟩ := laid_out_le hr
          have := (mem_present.mp hq).1.2
          omega
      · intro h
        refine prefix_of_zeros ?_ fun r hr => ?_
        · rw [List.range'_succ]
          exact (laid_out_sublist f (i + 1) k).cons i
        · rw [List.mem_range'_1] at hr
          rcases hr' : f r with _ | w
          · exact hnone r hr'
          · have hne : r ≠ i := fun e => by
              rw [e, hi] at hr'
              cases hr'
            exact h i r (le_refl i) (by omega) (by omega) hi (by rw [hr']; rfl)
    · have hsub : i - (i + 1) = 0 := by omega
      rw [present_some hi, laid_out, if_neg (by omega), hsub, List.range'_zero, List.nil_append,
        List.range'_succ, List.flatMap_cons, List.flatMap_cons, List.prefix_append_right_inj,
        ih (by omega)]
      constructor
      · intro h z j hz hzj hj hznone hsome
        have hne : z ≠ i := fun e => by
          rw [e, hi] at hznone
          cases hznone
        exact h z j (by omega) hzj (by omega) hznone hsome
      · intro h z j hz hzj hj hznone hsome
        exact h z j (by omega) hzj (by omega) hznone hsome

/-- A walk that has the slices `s..i` of a gap still to lay down: it agrees with what is due up
to the second gap, and behind it where there are only zeros. -/
theorem laid_out_iff (hnone : ∀ m, f m = none → Zeros (E m)) (hlen : ∀ m, (E m).length ≤ S)
    (hfull : ∀ m, m + 1 < N → (E m).length = S) {s i k : Nat} (hN : i + k ≤ N) (hsi : s ≤ i)
    (hgap : ∀ m, s ≤ m → m < i → f m = none) :
    (laid_out (present f i k) s).flatMap E <+: (List.range' s (i - s + k)).flatMap E ↔
      ∀ x y z j, s ≤ x → x < y → y < z → z < j → j < i + k → f x = none → (f y).isSome →
        f z = none → (f j).isSome → Zeros (E j) := by
  induction k generalizing s i with
  | zero =>
    simp only [present, List.range'_zero, List.filter_nil, laid_out, List.flatMap_nil,
      List.nil_prefix, true_iff]
    intro x y z j hx _ _ _ _ _ _ _ hsome
    rw [hgap j (by omega) (by omega)] at hsome
    cases hsome
  | succ k ih =>
    rcases hi : f i with _ | v
    · have hgap' : ∀ m, s ≤ m → m < i + 1 → f m = none := by
        intro m hm hmi
        by_cases hme : m = i
        · exact hme ▸ hi
        · exact hgap m hm (by omega)
      rw [present_none hi, show i - s + (k + 1) = i + 1 - s + k by omega,
        ih (by omega) (by omega) hgap', show i + 1 + k = i + (k + 1) by omega]
    · rw [present_some hi, laid_out]
      split_ifs with his
      · subst his
        rw [Nat.sub_self, Nat.zero_add, List.range'_succ, List.flatMap_cons, List.flatMap_cons,
          List.prefix_append_right_inj]
        have hrest := ih (show i + 1 + k ≤ N by omega) (le_refl (i + 1)) (fun m _ _ => by omega)
        rw [Nat.sub_self, Nat.zero_add] at hrest
        rw [hrest]
        constructor
        · intro h x y z j hx hxy hyz hzj hj hxn
          have hne : x ≠ i := fun e => by
            rw [e, hi] at hxn
            cases hxn
          exact h x y z j (by omega) hxy hyz hzj (by omega) hxn
        · intro h x y z j hx hxy hyz hzj hj
          exact h x y z j (by omega) hxy hyz hzj (by omega)
      · -- the gap ends here
        have hrange : List.range' s (i - s + (k + 1)) =
            List.range' s (i - s) ++ i :: List.range' (i + 1) k := by
          rw [← List.range'_succ, ← List.range'_append_1, Nat.add_sub_of_le hsi]
        rw [hrange, List.flatMap_append, List.flatMap_append, List.prefix_append_right_inj,
          List.flatMap_cons, List.flatMap_cons, List.prefix_append_right_inj,
          ahead_iff hnone hlen hfull (by omega)]
        constructor
        · intro h x y z j hx hxy hyz hzj hj _ hy hz hsome
          have hiy : i ≤ y := by
            by_contra hlt
            rw [hgap y (by omega) (by omega)] at hy
            cases hy
          exact h z j (by omega) hzj (by omega) hz hsome
        · intro h z j hz hzj hj hzn hsome
          exact h s i z j (le_refl s) (by omega) (by omega) hzj (by omega)
            (hgap s (le_refl s) (by omega)) (by rw [hi]; rfl) hzn hsome

end layout

/-! ## The buffer of a walk -/

section walk

variable [Features] {f : Nat → Option Bytes} {buf out : Bytes} {size : Nat}

/-- What a read owes for slice `i`: as much of it as lies in the file, zeros if it is not
stored. -/
def content (f : Nat → Option Bytes) (size i : Nat) : Bytes :=
  ((f i).getD (List.replicate SLICE_SIZE 0)).take (size - i * SLICE_SIZE)

/-- The buffer of a read and its count after `out` was laid down, which is cut where the buffer
ends. -/
def showing (buf out : Bytes) : Bytes × Nat :=
  (out.take buf.length ++ buf.drop out.length, min out.length buf.length)

omit [Features] in
theorem length_showing (buf out : Bytes) : (showing buf out).1.length = buf.length := by
  simp only [showing, List.length_append, List.length_take, List.length_drop]
  omega

omit [Features] in
/-- Nothing more is laid down in a full buffer. -/
theorem showing_append_of_full (h : buf.length ≤ out.length) (more : Bytes) :
    showing buf (out ++ more) = showing buf out := by
  simp only [showing, List.length_append, List.take_append_of_le_length h, Prod.mk.injEq,
    List.append_cancel_left_eq]
  rw [List.drop_eq_nil_of_le h, List.drop_eq_nil_of_le (by omega)]
  exact ⟨rfl, by omega⟩

theorem read_piece_showing {i : Nat} {v : Bytes} (hi : i * SLICE_SIZE ≤ size)
    (hv : v.length = SLICE_SIZE) : read_piece size 0 i v (showing buf out) =
      some (showing buf (out ++ v.take (size - i * SLICE_SIZE))) := by
  unfold read_piece
  simp only [length_showing, Nat.zero_sub, Nat.sub_zero]
  have hcount : (showing buf out).2 = min out.length buf.length := rfl
  rw [if_pos ⟨hi, by omega⟩, copy_from_slice, if_pos ⟨by rw [length_showing]; omega, by omega⟩,
    Option.map_some, Option.some.injEq, hcount]
  rcases Nat.le_total buf.length out.length with hfull | hroom
  · rw [showing_append_of_full hfull, Nat.min_eq_right hfull, Nat.sub_self, Nat.zero_min]
    simp only [List.drop_zero, List.take_zero, Slices.overlay, List.append_nil, List.length_nil,
      Nat.add_zero, List.take_append_drop]
    exact Prod.ext rfl (Nat.min_eq_right hfull).symm
  · have hlen : min (buf.length - out.length) (min (size - i * SLICE_SIZE) SLICE_SIZE) =
        min (buf.length - out.length) (v.take (size - i * SLICE_SIZE)).length := by
      rw [List.length_take, hv]
    have hchunk : v.take (min (buf.length - out.length) (v.take (size - i * SLICE_SIZE)).length) =
        (v.take (size - i * SLICE_SIZE)).take (buf.length - out.length) := by
      rw [List.take_take, List.length_take, List.take_eq_take_iff]
      omega
    rw [Nat.min_eq_left hroom, hlen, List.drop_zero, hchunk]
    generalize v.take (size - i * SLICE_SIZE) = w
    simp only [showing, Slices.overlay, List.take_of_length_le hroom, List.take_left',
      List.length_take, List.take_append, List.length_append, Prod.mk.injEq]
    refine ⟨?_, by omega⟩
    rw [List.append_assoc, List.append_assoc, List.append_cancel_left_eq,
      List.append_cancel_left_eq, List.drop_append, List.drop_drop,
      List.drop_eq_nil_of_le (by omega),
      List.nil_append]
    rcases Nat.le_total w.length (buf.length - out.length) with hw | hw
    · congr 1
      omega
    · rw [List.drop_eq_nil_of_le (by omega), List.drop_eq_nil_of_le (by omega)]

/-- The slices of a gap are laid down as zeros. -/
theorem read_row_showing {row : List Nat} (h : ∀ j ∈ row, j * SLICE_SIZE ≤ size ∧ f j = none) :
    row.foldlM (fun st i => read_piece size 0 i (List.replicate SLICE_SIZE 0) st)
        (showing buf out) =
      some (showing buf (out ++ row.flatMap (content f size))) := by
  induction row generalizing out with
  | nil => simp
  | cons j row ih =>
    obtain ⟨hj, hnone⟩ := h j List.mem_cons_self
    have hcontent : content f size j =
        (List.replicate SLICE_SIZE 0).take (size - j * SLICE_SIZE) := by rw [content, hnone]; rfl
    rw [List.foldlM_cons, read_piece_showing hj (List.length_replicate ..), ← hcontent]
    simp only [Option.bind_eq_bind, Option.bind_some]
    rw [ih fun q hq => h q (List.mem_cons_of_mem _ hq), List.flatMap_cons, List.append_assoc]

/-- The walk lays down what the slices say, in the order of `laid_out`. -/
theorem read_loop_showing (hf : Slices.Whole SLICE_SIZE f) {i k s : Nat} (h32 : i + k < 2 ^ 32)
    (hsize : ∀ j < i + k, j * SLICE_SIZE ≤ size) (hs : s ≤ i + 1)
    (hgap : ∀ m, s ≤ m → m < i → f m = none) :
    read_loop size 0 (stored f i k) s (showing buf out) =
      some (showing buf (out ++ (laid_out (present f i k) s).flatMap (content f size))) := by
  induction k generalizing i s out with
  | zero => simp [stored, present, laid_out, read_loop]
  | succ k ih =>
    rcases hi : f i with _ | v
    · have hgap' : ∀ m, s ≤ m → m < i + 1 → f m = none := by
        intro m hm hmi
        by_cases hme : m = i
        · exact hme ▸ hi
        · exact hgap m hm (by omega)
      rw [stored_none hi, present_none hi]
      exact ih (by omega) (fun j hj => hsize j (by omega)) (by omega) hgap'
    · have hcontent : content f size i = v.take (size - i * SLICE_SIZE) := by
        rw [content, hi]
        rfl
      have hpiece : ∀ out, read_piece size 0 i v (showing buf out) =
          some (showing buf (out ++ content f size i)) := fun out => by
        rw [hcontent]
        exact read_piece_showing (hsize i (by omega)) (hf i v hi)
      -- the end of a turn, whatever the walk expects next
      have hnext : ∀ s' out, i + 1 ≤ s' → s' ≤ i + 2 →
          (if (showing buf out).2 = (showing buf out).1.length then some (showing buf out)
            else read_loop size 0 (stored f (i + 1) k) s' (showing buf out)) =
          some (showing buf
            (out ++ (laid_out (present f (i + 1) k) s').flatMap (content f size))) := by
        intro s' out h1 h2
        split_ifs with hfull
        · rw [length_showing] at hfull
          have hle : buf.length ≤ out.length := by
            rw [← hfull]
            exact Nat.min_le_left ..
          rw [showing_append_of_full hle]
        · exact ih (by omega) (fun j hj => hsize j (by omega)) h2 (fun m h3 h4 => by omega)
      obtain ⟨index, hindex, htoNat⟩ := Option.map_eq_some_iff.mp (slice_key_number
        (show i < 2 ^ 32 by omega))
      rw [stored_some hi, present_some hi, read_loop, laid_out, hindex]
      simp only [Option.bind_eq_bind, Option.bind_some, htoNat, Option.pure_def]
      by_cases his : i = s
      · rw [if_neg (not_not.mpr his), if_pos his, hpiece, Option.bind_some,
          hnext _ _ (by omega) (by omega), List.flatMap_cons, List.append_assoc, his]
      · have hrow : ∀ j ∈ List.range' s (i - s), j * SLICE_SIZE ≤ size ∧ f j = none := by
          intro j hj
          rw [List.mem_range'_1] at hj
          exact ⟨hsize j (by omega), hgap j (by omega) (by omega)⟩
        rw [if_pos his, if_neg his, read_holes, Nat.mod_eq_of_lt (by omega), read_row_showing hrow,
          Option.bind_some, hpiece, Option.bind_some,
          hnext _ _ (by omega) (by omega), List.flatMap_append, List.flatMap_cons,
          List.append_assoc, List.append_assoc]

end walk

/-! ## What is due -/

section due

variable [Features] {f : Nat → Option Bytes} {size : Nat}

theorem zeros_content (size : Nat) {i : Nat} (h : f i = none) : Zeros (content f size i) := by
  rw [content, h]
  exact (Zeros.replicate _).take _

theorem length_whole (hf : Slices.Whole SLICE_SIZE f) (i : Nat) :
    ((f i).getD (List.replicate SLICE_SIZE 0)).length = SLICE_SIZE := by
  rcases hi : f i with _ | v
  · exact List.length_replicate ..
  · exact hf i v hi

theorem length_content (hf : Slices.Whole SLICE_SIZE f) (size i : Nat) :
    (content f size i).length = min (size - i * SLICE_SIZE) SLICE_SIZE := by
  rw [content, List.length_take, length_whole hf]

/-- All slices before the last one of the file are due in full. -/
theorem length_content_of_lt (hf : Slices.Whole SLICE_SIZE f) {i : Nat}
    (hi : i + 1 < size / SLICE_SIZE + 1) : (content f size i).length = SLICE_SIZE := by
  have h1 := Nat.mul_le_mul_right SLICE_SIZE (show i + 1 ≤ size / SLICE_SIZE by omega)
  have h2 := Nat.div_mul_le_self size SLICE_SIZE
  rw [Nat.add_mul, Nat.one_mul] at h1
  rw [length_content hf]
  omega

theorem getElem?_content (hf : Slices.Whole SLICE_SIZE f) {i q : Nat}
    (hq : q < (content f size i).length) :
    (content f size i)[q]? = some ((Slices.get SLICE_SIZE f (i * SLICE_SIZE + q)).getD 0) := by
  rw [length_content hf] at hq
  have hqS : q < SLICE_SIZE := by omega
  rw [content, List.getElem?_take, if_pos (by omega), Slices.get_pos f i hqS]
  rcases hi : f i with _ | v
  · simp [hqS]
  · have hlen := hf i v hi
    simp [show q < v.length by omega]

/-- Laid down one after the other, the slices are the file. -/
theorem getElem?_row (hf : Slices.Whole SLICE_SIZE f) {a n q : Nat}
    (hn : a + n ≤ size / SLICE_SIZE + 1)
    (hq : q < ((List.range' a n).flatMap (content f size)).length) :
    ((List.range' a n).flatMap (content f size))[q]? =
      some ((Slices.get SLICE_SIZE f (a * SLICE_SIZE + q)).getD 0) := by
  induction n generalizing a q with
  | zero => cases hq
  | succ n ih =>
    rw [List.range'_succ, List.flatMap_cons] at hq ⊢
    by_cases hhead : q < (content f size a).length
    · rw [List.getElem?_append_left hhead, getElem?_content hf hhead]
    · rw [List.length_append] at hq
      have hpos : 0 < n := by
        rcases Nat.eq_zero_or_pos n with rfl | hpos
        · simp at hq
          omega
        · exact hpos
      have hlen := length_content_of_lt hf (show a + 1 < size / SLICE_SIZE + 1 by omega)
      rw [List.getElem?_append_right (by omega), ih (by omega) (by omega), hlen, Nat.add_mul,
        Nat.one_mul, Nat.add_assoc, Nat.add_sub_of_le (by omega)]

theorem zeros_content_iff (hf : Slices.Whole SLICE_SIZE f) (j : Nat) :
    Zeros (content f size j) ↔
      ∀ p < size, p / SLICE_SIZE = j → (Slices.get SLICE_SIZE f p).getD 0 = 0 := by
  have hS := SLICE_SIZE_pos
  constructor
  · rintro h p hp rfl
    obtain ⟨hpos, hlt⟩ := Slices.pos_eq hS (p := p) rfl rfl
    have hq : p % SLICE_SIZE < (content f size (p / SLICE_SIZE)).length := by
      rw [length_content hf]
      omega
    have hget := getElem?_content hf hq
    rw [← hpos] at hget
    exact h _ (List.mem_of_getElem? hget)
  · intro h b hb
    obtain ⟨q, hq, hb⟩ := List.getElem_of_mem hb
    have hget := getElem?_content hf hq
    rw [List.getElem?_eq_getElem hq, hb, Option.some.injEq] at hget
    rw [length_content hf] at hq
    rw [hget]
    refine h _ (by omega) ?_
    rw [Nat.mul_comm, Nat.mul_add_div hS, Nat.div_eq_of_lt (by omega), Nat.add_zero]

end due

/-! ## Files with holes -/

section holes

variable [Features] {db : Db} {n : UInt64} {size : Nat}

/-- A file of which any slices are stored, each with its full size. -/
structure Holey (db : Db) (n : UInt64) (size : Nat) : Prop where
  size_eq : db.usize n .size = some size
  bound : size < (2 ^ 32 - 1) * SLICE_SIZE
  sliced : db.Sliced n
  keys : SliceKeys db n

/-- Two gaps, with a stored slice between them, lie before slice `j` from slice `first` on. -/
def TwoGapsBefore (f : Nat → Option Bytes) (first j : Nat) : Prop :=
  ∃ x y z, first ≤ x ∧ x < y ∧ y < z ∧ z < j ∧ f x = none ∧ (f y).isSome ∧ f z = none

/-- The read returns, and every byte it counts is the one of its place in the file. -/
def ReadsInPlace (s : Sys) (n : UInt64) (buf : Bytes) (offset : Nat) : Prop :=
  ∃ c b, dbfs_common_read n buf offset s = (.Ok (c, b), s) ∧
    ∀ i < c, b[i]? = some (s.db.byte n (offset + i))

theorem Holey.whole (h : Holey db n size) : Slices.Whole SLICE_SIZE (db.slices n) := by
  intro i v hv
  unfold Db.slices at hv
  split_ifs at hv
  exact h.sliced i v hv

/-- The slices that a read lays down, with a number of slices in all that is cut to the buffer
and to the file. -/
def laid_down (db : Db) (n : UInt64) (size first len : Nat) : Bytes :=
  (laid_out (present (db.slices n) first len) first).flatMap (content (db.slices n) size)

theorem Holey.read (h : Holey db n size) (buf : Bytes) (hbuf : buf.length < 2 ^ 63) {first : Nat}
    (hoff : first * SLICE_SIZE < size) :
    read_tx n buf (first * SLICE_SIZE) db =
      .Ok (((showing buf (laid_down db n size first
          (min (buf.length / SLICE_SIZE) (size / SLICE_SIZE - first) + 1))).2,
        (showing buf (laid_down db n size first
          (min (buf.length / SLICE_SIZE) (size / SLICE_SIZE - first) + 1))).1), db) := by
  have hS := SLICE_SIZE_pos
  have hS_le := SLICE_SIZE_le
  have hn := Db.has_of_usize h.size_eq
  have hblocks : size / SLICE_SIZE < 2 ^ 32 - 1 := (Nat.div_lt_iff_lt_mul hS).mpr h.bound
  have hfirst : first ≤ size / SLICE_SIZE := (Nat.le_div_iff_mul_le hS).mpr (by omega)
  have hend : (first * SLICE_SIZE + buf.length) / SLICE_SIZE = first + buf.length / SLICE_SIZE := by
    rw [Nat.mul_comm, Nat.mul_add_div hS]
  have hcount : min ((first * SLICE_SIZE + buf.length) / SLICE_SIZE + 1) (size / SLICE_SIZE + 1) -
      first = min (buf.length / SLICE_SIZE) (size / SLICE_SIZE - first) + 1 := by
    rw [hend]
    generalize size / SLICE_SIZE = blocks at hfirst ⊢
    generalize buf.length / SLICE_SIZE = count
    omega
  have hsizes : ∀ j < first + (min (buf.length / SLICE_SIZE) (size / SLICE_SIZE - first) + 1),
      j * SLICE_SIZE ≤ size := by
    intro j hj
    have h1 := Nat.mul_le_mul_right SLICE_SIZE (show j ≤ size / SLICE_SIZE by omega)
    have h2 := Nat.div_mul_le_self size SLICE_SIZE
    omega
  have hzero : showing buf [] = (buf, 0) := by simp [showing]
  have h32 : first + (min (buf.length / SLICE_SIZE) (size / SLICE_SIZE - first) + 1) < 2 ^ 32 := by
    omega
  have hloop := @read_loop_showing _ _ buf [] _ h.whole _ _ first h32 hsizes (Nat.le_succ first)
    (fun m h1 h2 => by omega)
  rw [hzero, List.nil_append] at hloop
  have hbound := h.bound
  have hrange := range_slices hn h.keys (show first < 2 ^ 32 by omega)
    (show min ((first * SLICE_SIZE + buf.length) / SLICE_SIZE + 1) (size / SLICE_SIZE + 1) <
      2 ^ 32 by omega)
  rw [hcount] at hrange
  rw [read_within h.size_eq hoff (by omega)]
  simp only [Nat.mul_div_cancel _ hS, Nat.mul_mod_left]
  rw [bind_of_ok hrange, bind_of_ok (unwrap_ok_iff.mpr ⟨hloop, rfl⟩)]
  rfl

/-- All slices that are laid down fit into the buffer, unless they are the slices of the file
one after the other. -/
theorem Holey.fits (h : Holey db n size) (len first : Nat) :
    (laid_down db n size first (min (len / SLICE_SIZE) (size / SLICE_SIZE - first) + 1)).length ≤
        len ∨
      laid_down db n size first (min (len / SLICE_SIZE) (size / SLICE_SIZE - first) + 1) =
        (List.range' first (min (len / SLICE_SIZE) (size / SLICE_SIZE - first) + 1)).flatMap
          (content (db.slices n) size) := by
  generalize hk : min (len / SLICE_SIZE) (size / SLICE_SIZE - first) = k
  have hsub := laid_out_sublist (db.slices n) first (k + 1)
  rcases Nat.lt_or_ge (laid_out (present (db.slices n) first (k + 1)) first).length (k + 1)
    with hlt | hge
  · left
    have hrow : ∀ row : List Nat, (row.flatMap (content (db.slices n) size)).length ≤
        row.length * SLICE_SIZE := by
      intro row
      induction row with
      | nil => simp
      | cons i row ih =>
        have := length_content h.whole size i
        rw [List.flatMap_cons, List.length_append, List.length_cons, Nat.add_mul, Nat.one_mul]
        omega
    have h1 := hrow (laid_out (present (db.slices n) first (k + 1)) first)
    have h2 := Nat.mul_le_mul_right SLICE_SIZE (show (laid_out (present (db.slices n) first
      (k + 1)) first).length ≤ len / SLICE_SIZE by omega)
    have h3 := Nat.div_mul_le_self len SLICE_SIZE
    exact h1.trans (h2.trans h3)
  · right
    rw [laid_down, hsub.eq_of_length_le (by rw [List.length_range']; exact hge)]

/-- The bytes are right exactly when what is laid down is the beginning of what is due. -/
theorem readsInPlace_iff_initial {s : Sys} {buf out due : Bytes} {offset : Nat}
    (hread : read_tx n buf offset s.db = .Ok (((showing buf out).2, (showing buf out).1), s.db))
    (hle : out.length ≤ due.length) (hfits : out.length ≤ buf.length ∨ out = due)
    (hbytes : ∀ q < due.length, due[q]? = some (s.db.byte n (offset + q))) :
    ReadsInPlace s n buf offset ↔ out <+: due := by
  have hget : ∀ i < min out.length buf.length, (showing buf out).1[i]? = out[i]? := by
    intro i hi
    simp only [showing]
    rw [List.getElem?_append_left (by rw [List.length_take]; omega), List.getElem?_take,
      if_pos (by omega)]
  constructor
  · rintro ⟨c, b, hret, hall⟩
    rcases hfits with hfit | heq
    · obtain ⟨⟨db', hret⟩, _⟩ := Fs.read_ok.mp hret
      cases hread.symm.trans hret
      rw [List.prefix_iff_getElem?]
      intro i hi
      have hi' : i < min out.length buf.length := by omega
      rw [hbytes i (by omega), ← List.getElem?_eq_getElem hi, ← hget i hi', hall i hi']
    · rw [heq]
  · intro hpre
    refine ⟨_, _, Fs.read_ok.mpr ⟨⟨_, hread⟩, rfl⟩, fun i hi => ?_⟩
    have hi' : i < min out.length buf.length := hi
    rw [hget i hi', List.getElem?_eq_getElem (by omega),
      ← List.prefix_iff_getElem?.mp hpre i (by omega), hbytes i (by omega)]

/-- A read from the start of a slice has every byte in its place exactly when each slice that it
meets behind a second gap holds nothing but zeros. -/
theorem holes_in_place_iff (s : Sys) (n : UInt64) (size offset : Nat) (buf : Bytes)
    (h : Holey s.db n size) (halign : offset % SLICE_SIZE = 0) (hbuf : buf.length < 2 ^ 63) :
    ReadsInPlace s n buf offset ↔
      ∀ j < min ((offset + buf.length) / SLICE_SIZE + 1) (size / SLICE_SIZE + 1),
        (s.db.slices n j).isSome → TwoGapsBefore (s.db.slices n) (offset / SLICE_SIZE) j →
          ∀ p < size, p / SLICE_SIZE = j → s.db.byte n p = 0 := by
  have hS := SLICE_SIZE_pos
  obtain ⟨first, rfl⟩ : ∃ first, offset = first * SLICE_SIZE :=
    ⟨offset / SLICE_SIZE, (Nat.div_mul_cancel (Nat.dvd_of_mod_eq_zero halign)).symm⟩
  rw [Nat.mul_div_cancel _ hS, Nat.mul_comm first, Nat.mul_add_div hS, Nat.mul_comm _ first]
  by_cases hoff : size ≤ first * SLICE_SIZE
  · have hread := read_past h.size_eq buf hoff
    refine iff_of_true ⟨0, buf, Fs.read_ok.mpr ⟨⟨_, hread⟩, rfl⟩, fun i hi => by omega⟩ ?_
    -- the range of the read ends before any gap could
    rintro j hj _ ⟨x, y, z, hx, hxy, hyz, hzj, _⟩
    have := Nat.div_le_div_right (c := SLICE_SIZE) hoff
    rw [Nat.mul_div_cancel _ hS] at this
    omega
  · have hfirst : first ≤ size / SLICE_SIZE := (Nat.le_div_iff_mul_le hS).mpr (by omega)
    have hread := h.read buf hbuf (not_le.mp hoff)
    have hfits := h.fits buf.length first
    have hsub := laid_out_sublist (s.db.slices n) first
      (min (buf.length / SLICE_SIZE) (size / SLICE_SIZE - first) + 1)
    generalize hk : min (buf.length / SLICE_SIZE) (size / SLICE_SIZE - first) + 1 = k
      at hread hfits hsub
    have hlast : min (first + buf.length / SLICE_SIZE + 1) (size / SLICE_SIZE + 1) = first + k := by
      omega
    have hlaid := laid_out_iff (fun m => zeros_content size)
      (fun m => (length_content h.whole size m).le.trans (Nat.min_le_right ..))
      (fun m => length_content_of_lt h.whole) (show first + k ≤ size / SLICE_SIZE + 1 by omega)
      (le_refl first) (fun m h1 h2 => by omega)
    rw [Nat.sub_self, Nat.zero_add] at hlaid
    change laid_down s.db n size first k <+: _ ↔ _ at hlaid
    replace hsub := (hsub.flatMap (content (s.db.slices n) size)).length_le
    change (laid_down s.db n size first k).length ≤ _ at hsub
    have hbytes : ∀ q < ((List.range' first k).flatMap (content (s.db.slices n) size)).length,
        ((List.range' first k).flatMap (content (s.db.slices n) size))[q]? =
          some (s.db.byte n (first * SLICE_SIZE + q)) := fun q hq =>
      getElem?_row h.whole (by omega) hq
    rw [readsInPlace_iff_initial hread hsub hfits hbytes, hlaid, hlast]
    constructor
    · rintro hzero j hj hsome ⟨x, y, z, hx, hxy, hyz, hzj, hxn, hys, hzn⟩
      exact (zeros_content_iff h.whole j).mp
        (hzero x y z j hx hxy hyz hzj hj hxn hys hzn hsome)
    · intro hzero x y z j hx hxy hyz hzj hj hxn hys hzn hsome
      exact (zeros_content_iff h.whole j).mpr
        (hzero j hj hsome ⟨x, y, z, hx, hxy, hyz, hzj, hxn, hys, hzn⟩)

end holes

/-! ## A file with two holes -/

section sample

/-- Slices 1 and 3 of a file of four slices. -/
def two_holes : Db :=
  ((((⟨none, ∅⟩ : Db).create 7).put 7 Field.size.key (be_usize 2048)).put 7 (slice_key 1)
    (List.replicate 512 1)).put 7 (slice_key 3) (List.replicate 512 2)

attribute [local instance] sli512_features

theorem two_holes_holey : Holey two_holes 7 2048 where
  size_eq := by decide +kernel
  bound := by decide
  sliced i v hv := by
    simp only [two_holes, Db.get_put, Db.get_create] at hv
    split_ifs at hv with h3 h1 hsize
    · cases hv
      exact List.length_replicate ..
    · cases hv
      exact List.length_replicate ..
    · exact absurd hsize.2.1.symm (field_ne_slice_key .size i)
  keys := sliceKeys_of_classes fun k v hv => by
    simp only [two_holes, Db.get_put, Db.get_create] at hv
    split_ifs at hv with h3 h1 hsize
    · exact .inr ⟨3, h3.2.1⟩
    · exact .inr ⟨1, h1.2.1⟩
    · exact .inl ⟨.size, hsize.2.1⟩

/-- Slice 3 is read in the place of the second hole. -/
theorem second_hole_lost :
    Holey two_holes 7 2048 ∧
      (dbfs_common_read 7 (List.replicate 1536 0) 0 ⟨two_holes, 8, ∅⟩).1 =
        .Ok (1536, List.replicate 512 0 ++ List.replicate 512 1 ++ List.replicate 512 2) ∧
      two_holes.byte 7 1024 = 0 ∧
      ¬ ReadsInPlace ⟨two_holes, 8, ∅⟩ 7 (List.replicate 1536 0) 0 := by
  have hread : dbfs_common_read 7 (List.replicate 1536 0) 0 ⟨two_holes, 8, ∅⟩ =
      (.Ok (1536, List.replicate 512 0 ++ List.replicate 512 1 ++ List.replicate 512 2),
        ⟨two_holes, 8, ∅⟩) := by decide +kernel
  have hbyte : two_holes.byte 7 1024 = 0 := by decide +kernel
  refine ⟨two_holes_holey, congrArg Prod.fst hread, hbyte, ?_⟩
  rintro ⟨c, b, h, hall⟩
  cases hread.symm.trans h
  have := hall 1024 (by decide)
  rw [Nat.zero_add, hbyte] at this
  revert this
  decide +kernel

theorem first_hole_read_as_zeros :
    Holey two_holes 7 2048 ∧
      ReadsInPlace ⟨two_holes, 8, ∅⟩ 7 (List.replicate 1024 0) 0 := by
  refine ⟨two_holes_holey, (holes_in_place_iff ⟨two_holes, 8, ∅⟩ 7 2048 0 (List.replicate 1024 0)
    two_holes_holey (by decide) (by decide +kernel)).mpr ?_⟩
  -- the range ends before slice 3
  rintro j hj _ ⟨x, y, z, _, hxy, hyz, hzj, _⟩
  have hj3 : j < 3 := lt_of_lt_of_le hj (by decide +kernel)
  omega

end sample

end dbfs2
