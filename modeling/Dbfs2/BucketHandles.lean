-- Programs through handles on buckets, against functions on one bucket alone. A program
-- that gets only the handle of a bucket changes the transaction at this one place; what it
-- does there is put together from what its steps do, loops and buckets inside included.
import Dbfs2.BucketPaths
import Mathlib.Order.Filter.AtTopBot.Basic

namespace BucketTree

variable {K V : Type} [LinearOrder K]

section paths

variable {b c d : BucketTree K V} {k : K} {p q : List K}

theorem place_cons_none (h : b.get_bucket k = none) (p : List K) (c : BucketTree K V) :
    b.place (k :: p) c = b := by
  rw [place, h]

theorem set_bucket_comm {k' : K} (h : k ≠ k') (b c d : BucketTree K V) :
    (b.set_bucket k c).set_bucket k' d = (b.set_bucket k' d).set_bucket k c := by
  refine ext_get fun j => ?_
  simp only [get_set_bucket]
  split_ifs with hj' hj
  · exact absurd (hj.symm.trans hj') h
  · rfl
  · rfl
  · rfl

theorem get_bucket_bind_ne {k' : K} {e : BucketData K V} {he : e.Ordered} (h : k' ≠ k) :
    (b.bind k e he).get_bucket k' = b.get_bucket k' := by
  ext c
  rw [get_bucket_eq_some, get_bucket_eq_some, get_bind, if_neg h]

theorem get_bucket_place_ne {k' : K} (h : k' ≠ k) (p : List K) (b c : BucketTree K V) :
    (b.place (k :: p) c).get_bucket k' = b.get_bucket k' := by
  rcases hk : b.get_bucket k with _ | e
  · rw [place_cons_none hk]
  · rw [place_cons hk, get_bucket_set_ne h]

/-- Changes at places that lie apart may be made in either order. -/
theorem place_comm (h : Apart p q) (b c d : BucketTree K V) :
    (b.place p c).place q d = (b.place q d).place p c := by
  induction p generalizing b q with
  | nil => exact absurd List.nil_prefix h.1
  | cons k p ih =>
    rcases q with _ | ⟨k', q⟩
    · exact absurd List.nil_prefix h.2
    by_cases hkey : k = k'
    · subst hkey
      have htail : Apart p q := by simpa [Apart, List.cons_prefix_cons] using h
      rcases hk : b.get_bucket k with _ | e
      · rw [place_cons_none hk p c, place_cons_none hk q d, place_cons_none hk p c]
      · rw [place_cons hk, place_cons hk, place_cons (get_bucket_set ..),
          place_cons (get_bucket_set ..), set_set_bucket, set_set_bucket, ih htail]
    · have hleft := get_bucket_place_ne (Ne.symm hkey) p b c
      have hright := get_bucket_place_ne hkey q b d
      rcases hk : b.get_bucket k with _ | e
      · rw [place_cons_none hk p c, place_cons_none (hright.trans hk)]
      · rcases hk' : b.get_bucket k' with _ | e'
        · rw [place_cons_none hk' q d, place_cons_none (hleft.trans hk')]
        · rw [place_cons (hleft.trans hk'), place_cons (hright.trans hk), place_cons hk,
            place_cons hk', set_bucket_comm hkey]

end paths

namespace InTx

variable {α β : Type}

/-! ## More operations on a handle -/

def get (bucket : List K) (k : K) : InTx K V (Option (BucketData K V)) :=
  fun tx => (tx.at_path bucket).map fun b => (b.get k, tx)

def get_kv (bucket : List K) (k : K) : InTx K V V :=
  fun tx => (tx.at_path bucket).bind fun b => (b.get_kv k).map (·, tx)

/-- Whether `get_bucket` gives a bucket. -/
def has_bucket (bucket : List K) (k : K) : InTx K V Bool :=
  fun tx => (tx.at_path bucket).map fun b => ((b.get_bucket k).isSome, tx)

def delete (bucket : List K) (k : K) : InTx K V Unit := modify bucket (·.delete k)

/-! ## What a program does to its bucket -/

/-- With enough fuel the program does at `p` what `f` does to a bucket alone, and nothing
elsewhere. -/
def Does (p : List K) (x : Nat → InTx K V α)
    (f : BucketTree K V → Option (α × BucketTree K V)) : Prop :=
  ∀ tx b, tx.at_path p = some b →
    ∀ᶠ fuel in Filter.atTop, x fuel tx = (f b).map fun r => (r.1, tx.place p r.2)

variable {p : List K} {k : K} {x : Nat → InTx K V α} {g : Nat → α → InTx K V β}
  {f f' : BucketTree K V → Option (α × BucketTree K V)}

theorem Does.congr (h : Does p x f) (hf : ∀ b, f b = f' b) : Does p x f' := by
  rwa [← funext hf]

theorem Does.pure (a : α) : Does p (fun _ => (pure a : InTx K V α)) fun b => some (a, b) := by
  intro tx b hb
  refine .of_forall fun _ => ?_
  rw [Option.map_some, place_at_path hb]
  rfl

theorem Does.bind {h : α → BucketTree K V → Option (β × BucketTree K V)} (hx : Does p x f)
    (hg : ∀ a, Does p (fun fuel => g fuel a) (h a)) :
    Does p (fun fuel => x fuel >>= g fuel) fun b => (f b).bind fun r => h r.1 r.2 := by
  intro tx b hb
  have hrun := hx tx b hb
  rcases hf : f b with _ | ⟨a, c⟩
  · filter_upwards [hrun] with fuel hfuel
    rw [bind_eq, hfuel, hf]
    rfl
  · filter_upwards [hrun, hg a (tx.place p c) c (at_path_place hb c)] with fuel hfuel hrest
    rw [bind_eq, hfuel, hf]
    change g fuel a (tx.place p c) = _
    rw [hrest, Option.bind_some]
    simp only [place_place hb]

theorem Does.ite {y : Nat → InTx K V α} (hx : Does p x f) (hy : Does p y f') (c : Bool) :
    Does p (fun fuel => if c then x fuel else y fuel) fun b => if c then f b else f' b := by
  cases c with
  | false => exact hy
  | true => exact hx

theorem Does.modify (f : BucketTree K V → Option (BucketTree K V)) :
    Does p (fun _ => modify p f) fun b => (f b).map ((), ·) := by
  intro tx b hb
  refine .of_forall fun _ => ?_
  dsimp only
  rw [modify_eq hb, Option.map_map]
  rfl

/-- A look at the bucket changes nothing. -/
theorem Does.look {y : InTx K V α} {f : BucketTree K V → Option α}
    (hy : ∀ tx b, tx.at_path p = some b → y tx = (f b).map (·, tx)) :
    Does p (fun _ => y) fun b => (f b).map (·, b) := by
  intro tx b hb
  refine .of_forall fun _ => ?_
  dsimp only
  rw [hy tx b hb, Option.map_map]
  simp only [Function.comp_def, place_at_path hb]

theorem Does.get_kv (k : K) :
    Does p (fun _ => get_kv (V := V) p k) fun b => (b.get_kv k).map (·, b) :=
  .look fun tx b hb => by rw [InTx.get_kv, hb]; rfl

theorem Does.has_bucket (k : K) :
    Does p (fun _ => has_bucket (V := V) p k) fun b => some ((b.get_bucket k).isSome, b) :=
  .look (f := fun b => some (b.get_bucket k).isSome) fun tx b hb => by
    rw [InTx.has_bucket, hb]; rfl

/-- What goes on in a bucket inside changes the bucket at this key. -/
theorem Does.step {g : Nat → List K → InTx K V β}
    {f : BucketTree K V → Option (β × BucketTree K V)}
    (hg : Does (p ++ [k]) (fun fuel => g fuel (p ++ [k])) f) :
    Does p (fun fuel => get_bucket p k >>= g fuel) fun b =>
      (b.get_bucket k).bind fun c => (f c).map fun r => (r.1, b.set_bucket k r.2) := by
  intro tx b hb
  have hat := at_path_concat hb k
  rcases hk : b.get_bucket k with _ | c
  · refine .of_forall fun fuel => ?_
    dsimp only
    rw [bind_eq, get_bucket, hat, hk]
    rfl
  · rw [hk] at hat
    filter_upwards [hg tx c hat] with fuel hfuel
    rw [bind_of_some (get_bucket_eq hat), hfuel, hk, Option.bind_some, Option.map_map]
    simp only [Function.comp_def, place_concat hb hk]

/-- So with a bucket that is made first, and is empty. -/
theorem Does.make {g : Nat → List K → InTx K V β}
    {f : BucketTree K V → Option (β × BucketTree K V)}
    (hg : Does (p ++ [k]) (fun fuel => g fuel (p ++ [k])) f) :
    Does p (fun fuel => create_bucket p k >>= g fuel) fun b =>
      (b.create_bucket k).bind fun c => (f ∅).map fun r => (r.1, c.set_bucket k r.2) := by
  intro tx b hb
  have hmake : create_bucket p k tx =
      (b.create_bucket k).map fun c => (p ++ [k], tx.place p c) := by
    conv_lhs => rw [← place_at_path hb]
    exact create_bucket_place hb k b
  rcases hk : b.create_bucket k with _ | c
  · refine .of_forall fun fuel => ?_
    dsimp only
    rw [bind_eq, hmake, hk]
    rfl
  · have hempty := get_bucket_of_create hk
    have hat := (at_path_concat (at_path_place hb c) k).trans hempty
    rw [hk] at hmake
    filter_upwards [hg (tx.place p c) ∅ hat] with fuel hfuel
    rw [bind_of_some hmake, hfuel, hk, Option.bind_some, Option.map_map]
    simp only [Function.comp_def, place_concat (at_path_place hb c) hempty, place_place hb]

/-- A loop does what the fold of its turns does. -/
theorem Does.forM {es : List α} {turn : Nat → α → InTx K V Unit}
    {f : BucketTree K V → α → Option (BucketTree K V)}
    (hturn : ∀ a, Does p (fun fuel => turn fuel a) fun b => (f b a).map ((), ·)) :
    Does p (fun fuel => es.forM (turn fuel)) fun b => (es.foldlM f b).map ((), ·) := by
  induction es with
  | nil => exact Does.pure ()
  | cons a es ih =>
    refine (Does.bind (g := fun fuel _ => es.forM (turn fuel)) (hturn a) fun _ => ih).congr ?_
    intro b
    rw [List.foldlM_cons]
    rcases f b a with _ | c <;> rfl

/-- A loop that gathers from the bucket gathers what the fold over the bucket alone does. -/
theorem Does.gather {es : List α} {turn : β → α → InTx K V β}
    {f : BucketTree K V → β → α → Option β}
    (hturn : ∀ acc a, Does p (fun _ => turn acc a) fun b => (f b acc a).map (·, b)) (acc : β) :
    Does p (fun _ => es.foldlM turn acc) fun b => (es.foldlM (f b) acc).map (·, b) := by
  induction es generalizing acc with
  | nil => exact Does.pure acc
  | cons a es ih =>
    refine (Does.bind (g := fun _ acc => es.foldlM turn acc) (hturn acc a) ih).congr ?_
    intro b
    rw [List.foldlM_cons]
    rcases f b acc a with _ | acc' <;> rfl

end InTx

end BucketTree
