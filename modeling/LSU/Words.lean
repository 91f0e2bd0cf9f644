import Mathlib.Tactic.Ring

/-! Words as bytes, least significant byte first, of any width. -/
namespace LSU.Words

/-- The `w` low bytes of `n`. -/
def pack (n : Nat) : Nat → List UInt8
  | 0 => []
  | w + 1 => UInt8.ofNat (n % 256) :: pack (n / 256) w

def unpack : List UInt8 → Nat
  | [] => 0
  | b :: bs => b.toNat + 256 * unpack bs

@[simp] theorem pack_length (n w : Nat) : (pack n w).length = w := by
  induction w generalizing n with
  | zero => rfl
  | succ w ih => simp [pack, ih]

theorem unpack_pack (n w : Nat) : unpack (pack n w) = n % 256 ^ w := by
  induction w generalizing n with
  | zero => simp [pack, unpack, Nat.mod_one]
  | succ w ih =>
    have hb : (UInt8.ofNat (n % 256)).toNat = n % 256 := by simp
    calc
      unpack (pack n (w + 1)) = n % 256 + 256 * (n / 256 % 256 ^ w) := by
        rw [pack, unpack, hb, ih]
      _ = n % (256 * 256 ^ w) := (Nat.mod_mul).symm
      _ = n % 256 ^ (w + 1) := by rw [pow_succ']

theorem unpack_pack_of_lt {n w : Nat} (h : n < 256 ^ w) : unpack (pack n w) = n := by
  rw [unpack_pack, Nat.mod_eq_of_lt h]

theorem unpack_lt (bs : List UInt8) : unpack bs < 256 ^ bs.length := by
  induction bs with
  | nil => simp [unpack]
  | cons b bs ih =>
    have hb : b.toNat < 256 := b.toNat_lt
    rw [unpack, List.length_cons, pow_succ']
    omega

theorem pack_unpack (bs : List UInt8) : pack (unpack bs) bs.length = bs := by
  induction bs with
  | nil => rfl
  | cons b bs ih =>
    have hb : b.toNat < 256 := b.toNat_lt
    have hlow : (b.toNat + 256 * unpack bs) % 256 = b.toNat := by omega
    have hhigh : (b.toNat + 256 * unpack bs) / 256 = unpack bs := by omega
    rw [unpack, List.length_cons, pack, hlow, hhigh, ih, UInt8.ofNat_toNat]

end LSU.Words
