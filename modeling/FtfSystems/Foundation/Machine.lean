import Mathlib.Tactic

/-!
# 64-bit words and byte-addressed memory

Unsigned machine words are natural numbers below `2 ^ 64`; their arithmetic wraps
around explicitly. Memory is a total map from addresses to bytes. A scalar occupies
consecutive bytes, least significant byte first, so two accesses interact exactly when
their byte ranges meet.
-/
namespace FtfSystems.Foundation

/-- Unsigned 64-bit addition. -/
def wadd (a b : ℕ) : ℕ := (a + b) % 2 ^ 64

/-- Unsigned 64-bit subtraction. -/
def wsub (a b : ℕ) : ℕ := (a + (2 ^ 64 - b % 2 ^ 64)) % 2 ^ 64

/-- Unsigned 64-bit multiplication. -/
def wmul (a b : ℕ) : ℕ := (a * b) % 2 ^ 64

theorem wadd_of_lt {a b : ℕ} (h : a + b < 2 ^ 64) : wadd a b = a + b := Nat.mod_eq_of_lt h

theorem wsub_of_le {a b : ℕ} (ha : a < 2 ^ 64) (h : b ≤ a) : wsub a b = a - b := by
  unfold wsub
  omega

theorem wmul_of_lt {a b : ℕ} (h : a * b < 2 ^ 64) : wmul a b = a * b := Nat.mod_eq_of_lt h

/-- A byte for every address. -/
abbrev Memory := ℕ → UInt8

namespace Memory

/-- The little-endian number in the `n` bytes from `a` on. -/
def load (m : Memory) : ℕ → ℕ → ℕ
  | _, 0 => 0
  | a, n + 1 => (m a).toNat + 256 * load m (a + 1) n

/-- Write the `n` low-order bytes of `v` from `a` on. -/
def store (m : Memory) (a n v : ℕ) : Memory :=
  fun x => if a ≤ x ∧ x < a + n then UInt8.ofNat (v / 256 ^ (x - a)) else m x

/-- `memmove`: all source bytes are read before the first destination byte is written. -/
def memmove (m : Memory) (dst src n : ℕ) : Memory :=
  fun x => if dst ≤ x ∧ x < dst + n then m (src + (x - dst)) else m x

/-- `memset`. -/
def memset (m : Memory) (dst : ℕ) (v : UInt8) (n : ℕ) : Memory :=
  fun x => if dst ≤ x ∧ x < dst + n then v else m x

/-- Two memories agree on the `n` bytes from `a` on. -/
def AgreeOn (m m' : Memory) (a n : ℕ) : Prop := ∀ x, a ≤ x → x < a + n → m' x = m x

theorem AgreeOn.trans {m₁ m₂ m₃ : Memory} {a n : ℕ} (h : AgreeOn m₁ m₂ a n)
    (h' : AgreeOn m₂ m₃ a n) : AgreeOn m₁ m₃ a n :=
  fun x hx hx' => (h' x hx hx').trans (h x hx hx')

theorem AgreeOn.sub {m m' : Memory} {a n b k : ℕ} (h : AgreeOn m m' a n) (hb : a ≤ b)
    (hk : b + k ≤ a + n) : AgreeOn m m' b k :=
  fun x hx hx' => h x (by omega) (by omega)

theorem AgreeOn.refl (m : Memory) (a n : ℕ) : AgreeOn m m a n := fun _ _ _ => rfl

/-- A load depends only on the bytes it covers. -/
theorem load_congr {m m' : Memory} {a n : ℕ} (h : AgreeOn m m' a n) : m'.load a n = m.load a n := by
  induction n generalizing a with
  | zero => rfl
  | succ n ih =>
    rw [load, load, h a le_rfl (by omega), ih (h.sub (by omega) (by omega))]

theorem store_agree (m : Memory) {a n v b k : ℕ} (h : b + k ≤ a ∨ a + n ≤ b) :
    AgreeOn m (m.store a n v) b k := by
  intro x hx hx'
  have hout : ¬ (a ≤ x ∧ x < a + n) := by omega
  simp [store, hout]

theorem memmove_agree (m : Memory) {dst src n b k : ℕ} (h : b + k ≤ dst ∨ dst + n ≤ b) :
    AgreeOn m (m.memmove dst src n) b k := by
  intro x hx hx'
  have hout : ¬ (dst ≤ x ∧ x < dst + n) := by omega
  simp [memmove, hout]

theorem memmove_at (m : Memory) {dst src n i : ℕ} (hi : i < n) :
    m.memmove dst src n (dst + i) = m (src + i) := by
  have hin : dst ≤ dst + i ∧ dst + i < dst + n := by omega
  simp only [memmove, if_pos hin, Nat.add_sub_cancel_left]

theorem memmove_self (m : Memory) (a n : ℕ) : m.memmove a a n = m := by
  funext x
  unfold memmove
  split
  · congr 1
    omega
  · rfl

theorem memset_agree (m : Memory) {dst n b k : ℕ} {v : UInt8} (h : b + k ≤ dst ∨ dst + n ≤ b) :
    AgreeOn m (m.memset dst v n) b k := by
  intro x hx hx'
  have hout : ¬ (dst ≤ x ∧ x < dst + n) := by omega
  simp [memset, hout]

/-- The same store keeps two memories alike. -/
theorem AgreeOn.store {m m' : Memory} {b k : ℕ} (h : AgreeOn m m' b k) (a n v : ℕ) :
    AgreeOn (m.store a n v) (m'.store a n v) b k := by
  intro x hx hx'
  simp only [Memory.store, h x hx hx']

/-- The same move keeps two memories alike that have the same source. -/
theorem AgreeOn.memmove {m m' : Memory} {b k src n : ℕ} (h : AgreeOn m m' b k) (dst : ℕ)
    (hsrc : AgreeOn m m' src n) : AgreeOn (m.memmove dst src n) (m'.memmove dst src n) b k := by
  intro x hx hx'
  unfold Memory.memmove
  split
  · exact hsrc _ (by omega) (by omega)
  · exact h x hx hx'

/-- The bytes of a number, read back least significant first. -/
theorem load_of_bytes {m : Memory} {a n v : ℕ}
    (h : ∀ i, i < n → m (a + i) = UInt8.ofNat (v / 256 ^ i)) : m.load a n = v % 256 ^ n := by
  induction n generalizing a v with
  | zero => simp [load, Nat.mod_one]
  | succ n ih =>
    have hhead : (m a).toNat = v % 256 := by
      have h0 := h 0 (by omega)
      simp only [Nat.add_zero, pow_zero, Nat.div_one] at h0
      rw [h0]
      exact UInt8.toNat_ofNat'
    have htail : m.load (a + 1) n = (v / 256) % 256 ^ n := by
      apply ih
      intro i hi
      have hs := h (i + 1) (by omega)
      rw [show a + 1 + i = a + (i + 1) by omega, hs, Nat.div_div_eq_div_mul, pow_succ']
    rw [load, hhead, htail, pow_succ', Nat.mod_mul]

/-- A stored scalar reads back, truncated to its width. -/
theorem load_store (m : Memory) (a n v : ℕ) : (m.store a n v).load a n = v % 256 ^ n := by
  apply load_of_bytes
  intro i hi
  have hin : a ≤ a + i ∧ a + i < a + n := by omega
  simp only [store, if_pos hin, Nat.add_sub_cancel_left]

/-- The first bytes of a number are its low-order digits. -/
theorem load_mod (m : Memory) (a : ℕ) {k n : ℕ} (h : k ≤ n) :
    m.load a n % 256 ^ k = m.load a k := by
  induction k generalizing a n with
  | zero => simp [load, Nat.mod_one]
  | succ k ih =>
    obtain ⟨n, rfl⟩ : ∃ n', n = n' + 1 := ⟨n - 1, by omega⟩
    have hlt := (m a).toNat_lt
    have hhead : ((m a).toNat + 256 * m.load (a + 1) n) % 256 = (m a).toNat := by omega
    have htail : ((m a).toNat + 256 * m.load (a + 1) n) / 256 = m.load (a + 1) n := by omega
    rw [load, load, pow_succ', Nat.mod_mul, hhead, htail, ih (a + 1) (by omega)]

/-- Numbers are equal when their bytes are. -/
theorem load_eq_iff {m m' : Memory} {a n : ℕ} : m'.load a n = m.load a n ↔ AgreeOn m m' a n := by
  refine ⟨?_, load_congr⟩
  induction n generalizing a with
  | zero =>
    intro _ x hx hx'
    omega
  | succ n ih =>
    intro h x hx hx'
    rw [load, load] at h
    have hlt := (m a).toNat_lt
    have hlt' := (m' a).toNat_lt
    by_cases hxa : x = a
    · subst hxa
      exact UInt8.toNat_inj.mp (by omega)
    · have htail : m'.load (a + 1) n = m.load (a + 1) n := by omega
      exact ih htail x (by omega) (by omega)

/-- Storing what is there. -/
theorem store_load (m : Memory) (a n : ℕ) : m.store a n (m.load a n) = m := by
  have hin : AgreeOn m (m.store a n (m.load a n)) a n :=
    load_eq_iff.mp (by rw [load_store, load_mod m a le_rfl])
  funext x
  by_cases hx : a ≤ x ∧ x < a + n
  · exact hin x hx.1 hx.2
  · exact if_neg hx

end Memory
end FtfSystems.Foundation
