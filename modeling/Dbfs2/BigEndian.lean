-- Numbers as byte strings of a fixed width, most significant byte first. The
-- encoding keeps the order: of two numbers that fit, the smaller one has the
-- smaller byte string.
import Dbfs2.OrdMap

namespace BigEndian

/-- The `w` low bytes of `n`, most significant first. -/
def encode : (w n : Nat) → List UInt8
  | 0, _ => []
  | w + 1, n => UInt8.ofNat (n / 256 ^ w) :: encode w n

/-- The number that a byte string stands for. -/
def decode : List UInt8 → Nat
  | [] => 0
  | b :: bs => b.toNat * 256 ^ bs.length + decode bs

@[simp]
theorem length_encode (w n : Nat) : (encode w n).length = w := by
  induction w with
  | zero => rfl
  | succ w ih => simp [encode, ih]

theorem decode_lt (bs : List UInt8) : decode bs < 256 ^ bs.length := by
  induction bs with
  | nil => simp [decode]
  | cons b bs ih =>
    have hb : b.toNat ≤ 255 := by
      have := b.toNat_lt
      omega
    calc b.toNat * 256 ^ bs.length + decode bs
        < b.toNat * 256 ^ bs.length + 256 ^ bs.length := by omega
      _ = (b.toNat + 1) * 256 ^ bs.length := by rw [Nat.add_mul, Nat.one_mul]
      _ ≤ 256 * 256 ^ bs.length := Nat.mul_le_mul_right _ (by omega)
      _ = 256 ^ (b :: bs).length := by rw [List.length_cons, Nat.pow_succ, Nat.mul_comm]

theorem decode_encode (w n : Nat) : decode (encode w n) = n % 256 ^ w := by
  induction w with
  | zero => simp [encode, decode, Nat.mod_one]
  | succ w ih =>
    simp only [encode, decode, length_encode, ih]
    have hb : (UInt8.ofNat (n / 256 ^ w)).toNat = n / 256 ^ w % 256 := by simp
    rw [hb, Nat.pow_succ, Nat.mod_mul, Nat.mul_comm (n / 256 ^ w % 256)]
    omega

/-- A number that fits the width comes back unchanged. -/
theorem decode_encode_of_lt {w n : Nat} (h : n < 256 ^ w) : decode (encode w n) = n := by
  rw [decode_encode, Nat.mod_eq_of_lt h]

theorem decode_append_lt {p as bs : List UInt8} (h : as.length = bs.length)
    (hlt : as < bs) : p ++ as < p ++ bs ∧ decode as < decode bs := by
  refine ⟨?_, ?_⟩
  · induction p with
    | nil => exact hlt
    | cons c p ih => exact List.Lex.cons ih
  · induction hlt with
    | nil => simp at h
    | @cons a as bs _ ih =>
      simp only [List.length_cons, Nat.add_right_cancel_iff] at h
      have := ih h
      simp only [decode, h]
      omega
    | @rel a as b bs hab =>
      simp only [List.length_cons, Nat.add_right_cancel_iff] at h
      have hab' : a.toNat + 1 ≤ b.toNat := UInt8.lt_iff_toNat_lt.mp hab
      have has := decode_lt as
      simp only [decode, h] at has ⊢
      calc a.toNat * 256 ^ bs.length + decode as
          < (a.toNat + 1) * 256 ^ bs.length := by rw [Nat.add_mul]; omega
        _ ≤ b.toNat * 256 ^ bs.length := Nat.mul_le_mul_right _ hab'
        _ ≤ b.toNat * 256 ^ bs.length + decode bs := Nat.le_add_right _ _

/-- On byte strings of one length the byte order is the order of the numbers. -/
theorem lt_iff_decode_lt {as bs : List UInt8} (h : as.length = bs.length) :
    as < bs ↔ decode as < decode bs := by
  constructor
  · exact fun hlt => (decode_append_lt (p := []) h hlt).2
  · intro hd
    rcases lt_trichotomy as bs with hlt | heq | hgt
    · exact hlt
    · subst heq
      exact absurd hd (lt_irrefl _)
    · exact absurd (decode_append_lt (p := []) h.symm hgt).2 (by omega)

/-- Every byte string is the encoding of a number. -/
theorem encode_decode (bs : List UInt8) : encode bs.length (decode bs) = bs := by
  have hlen := length_encode bs.length (decode bs)
  have hdec := decode_encode_of_lt (decode_lt bs)
  rcases lt_trichotomy (encode bs.length (decode bs)) bs with h | h | h
  · have hlt := (lt_iff_decode_lt hlen).mp h
    omega
  · exact h
  · have hlt := (lt_iff_decode_lt hlen.symm).mp h
    omega

theorem encode_lt_iff {w a b : Nat} (ha : a < 256 ^ w) (hb : b < 256 ^ w) :
    encode w a < encode w b ↔ a < b := by
  rw [lt_iff_decode_lt (by simp), decode_encode_of_lt ha, decode_encode_of_lt hb]

end BigEndian
