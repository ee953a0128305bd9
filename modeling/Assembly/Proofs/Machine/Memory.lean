import Mathlib.Data.BitVec

/-!
# Memory

Memory by bytes, with the lowest byte of a number first.  Addresses wrap around, so two places are
told apart by how far one is above the other.
-/

namespace Assembly

/-- The byte at each address of `w` bits. -/
abbrev Memory (w : Nat) := BitVec w → BitVec 8

namespace Memory

variable {w n k o : Nat} {m m' : Memory w} {a b : BitVec w}

/-- The number in the `n` bytes from an address on. -/
def read (m : Memory w) (a : BitVec w) : (n : Nat) → BitVec (8 * n)
  | 0 => 0#0
  | n + 1 => m.read (a + 1) n ++ m a

/-- Puts a number into the `n` bytes from an address on. -/
def write (m : Memory w) (a : BitVec w) (n : Nat) (x : BitVec (8 * n)) : Memory w := fun b =>
  if (b - a).toNat < n then x.extractLsb' (8 * (b - a).toNat) 8 else m b

theorem toNat_add_ofNat_sub (a : BitVec w) {k : Nat} (hk : k < 2 ^ w) :
    (a + BitVec.ofNat w k - a).toNat = k := by
  rw [BitVec.add_comm, BitVec.add_sub_cancel, BitVec.toNat_ofNat, Nat.mod_eq_of_lt hk]

theorem getLsbD_read (m : Memory w) (a : BitVec w) (n : Nat) {j : Nat} (hj : j < 8 * n) :
    (m.read a n).getLsbD j = (m (a + BitVec.ofNat w (j / 8))).getLsbD (j % 8) := by
  induction n generalizing a j with
  | zero => exact absurd hj (Nat.not_lt_zero j)
  | succ n ih =>
    rw [read, BitVec.getLsbD_append]
    by_cases hlow : j < 8
    · rw [if_pos hlow, Nat.div_eq_of_lt hlow, Nat.mod_eq_of_lt hlow, BitVec.add_zero]
    · have hnext : a + 1 + BitVec.ofNat w ((j - 8) / 8) = a + BitVec.ofNat w (j / 8) := by
        have hdiv : j / 8 = 1 + (j - 8) / 8 := by omega
        rw [hdiv, BitVec.ofNat_add, ← BitVec.add_assoc]
        rfl
      have hmod : (j - 8) % 8 = j % 8 := by omega
      rw [if_neg hlow, ih (a + 1) (by omega), hnext, hmod]

theorem read_congr (h : ∀ k < n, m (a + BitVec.ofNat w k) = m' (a + BitVec.ofNat w k)) :
    m.read a n = m'.read a n := by
  refine BitVec.eq_of_getLsbD_eq fun j hj => ?_
  rw [getLsbD_read _ _ _ hj, getLsbD_read _ _ _ hj, h _ (by omega)]

theorem setWidth_read (m : Memory w) (a : BitVec w) (hk : k ≤ n) :
    (m.read a n).setWidth (8 * k) = m.read a k := by
  refine BitVec.eq_of_getLsbD_eq fun j hj => ?_
  rw [BitVec.getLsbD_setWidth, getLsbD_read _ _ _ hj, getLsbD_read _ _ _ (by omega)]
  simp [hj]

theorem read_write (m : Memory w) (a : BitVec w) (hn : n ≤ 2 ^ w) (x : BitVec (8 * n)) :
    (m.write a n x).read a n = x := by
  refine BitVec.eq_of_getLsbD_eq fun j hj => ?_
  have hdist : (a + BitVec.ofNat w (j / 8) - a).toNat = j / 8 := toNat_add_ofNat_sub a (by omega)
  rw [getLsbD_read _ _ _ hj, write, hdist, if_pos (by omega), BitVec.getLsbD_extractLsb',
    Nat.div_add_mod]
  have hmod : j % 8 < 8 := Nat.mod_lt j (by decide)
  simp [hmod]

/-- Bytes behind those that are written stay, as long as they do not wrap around to them. -/
theorem read_write_of_le (m : Memory w) (a : BitVec w) {x : BitVec (8 * n)} (hn : n ≤ o)
    (ho : o + k ≤ 2 ^ w) :
    (m.write a n x).read (a + BitVec.ofNat w o) k = m.read (a + BitVec.ofNat w o) k := by
  refine read_congr fun j hj => ?_
  have hdist : (a + BitVec.ofNat w o + BitVec.ofNat w j - a).toNat = o + j := by
    rw [BitVec.add_assoc, ← BitVec.ofNat_add]
    exact toNat_add_ofNat_sub a (by omega)
  rw [write, hdist, if_neg (by omega)]

end Memory

/-- One of the `n` bytes below an address. -/
def Below {w : Nat} (a : BitVec w) (n : Nat) (b : BitVec w) : Prop :=
  ∃ k < n, b = a - BitVec.ofNat w (k + 1)

namespace Below

variable {w n m : Nat} {a b : BitVec w}

theorem mono (h : Below a n b) (hle : n ≤ m) : Below a m b := by
  obtain ⟨k, hk, hb⟩ := h
  exact ⟨k, by omega, hb⟩

/-- The last `n` of the bytes below an address, counted from their start. -/
theorem of_toNat_lt (h : (b - (a - BitVec.ofNat w (m + n))).toNat < n) : Below a (m + n) b := by
  obtain ⟨j, hj⟩ : ∃ j, (b - (a - BitVec.ofNat w (m + n))).toNat = j := ⟨_, rfl⟩
  have hb : b = a - BitVec.ofNat w (m + n) + BitVec.ofNat w j := by
    rw [← hj, BitVec.ofNat_toNat, BitVec.setWidth_eq]
    exact (add_sub_cancel _ b).symm
  -- Counted down from `a`, byte `j` of the write is the one at `m + n - j`.
  have hsplit : m + n = m + n - j - 1 + 1 + j := by omega
  refine ⟨m + n - j - 1, by omega, ?_⟩
  calc b = a - BitVec.ofNat w (m + n - j - 1 + 1 + j) + BitVec.ofNat w j := by rw [← hsplit, hb]
    _ = a - BitVec.ofNat w (m + n - j - 1 + 1) := by
      rw [BitVec.ofNat_add _ j, ← sub_sub, sub_add_cancel]

end Below

end Assembly
