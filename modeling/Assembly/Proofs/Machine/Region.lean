import Assembly.Text
import Assembly.Proofs.Machine.Memory

/-!
# Regions of memory

The bytes from an address on, and the text in them.  Addresses wrap around, so a region is known
by its start and by how many bytes it has, and two regions are apart if together they are no more
than the memory.
-/

namespace Assembly

/-- One of the `n` bytes from an address on. -/
def Within {w : Nat} (a : BitVec w) (n : Nat) (b : BitVec w) : Prop :=
  ∃ k < n, b = a + BitVec.ofNat w k

namespace Within

variable {w n m k : Nat} {a b : BitVec w}

theorem mono (h : Within a n b) (hle : n ≤ m) : Within a m b := by
  obtain ⟨k, hk, hb⟩ := h
  exact ⟨k, by omega, hb⟩

theorem of_toNat_lt (h : (b - a).toNat < n) : Within a n b := by
  refine ⟨(b - a).toNat, h, ?_⟩
  rw [BitVec.ofNat_toNat, BitVec.setWidth_eq]
  exact (add_sub_cancel a b).symm

theorem toNat_lt (h : Within a n b) (hn : n ≤ 2 ^ w) : (b - a).toNat < n := by
  obtain ⟨k, hk, rfl⟩ := h
  rwa [Memory.toNat_add_ofNat_sub a (by omega)]

theorem add (h : Within (a + BitVec.ofNat w k) n b) : Within a (k + n) b := by
  obtain ⟨j, hj, rfl⟩ := h
  exact ⟨k + j, by omega, by rw [BitVec.ofNat_add, BitVec.add_assoc]⟩

theorem below (h : Within (a - BitVec.ofNat w k) n b) (hn : n ≤ k) : Below a k b := by
  obtain ⟨j, hj, rfl⟩ := h
  have hsplit : k = j + (k - j - 1 + 1) := by omega
  refine ⟨k - j - 1, by omega, ?_⟩
  rw [hsplit, BitVec.ofNat_add, ← sub_sub, sub_right_comm, sub_add_cancel]
  congr 3
  omega

theorem of_below (h : Below (a + BitVec.ofNat w k) n b) (hn : n ≤ k) : Within a k b := by
  obtain ⟨j, hj, rfl⟩ := h
  have hsplit : k = k - (j + 1) + (j + 1) := by omega
  refine ⟨k - (j + 1), by omega, ?_⟩
  nth_rewrite 1 [hsplit]
  rw [BitVec.ofNat_add, ← BitVec.add_assoc, add_sub_cancel_right]

/-- What is below an address is not from it on, as long as the two do not meet at the other end. -/
theorem not_below (h : Within a n b) (hroom : n + m ≤ 2 ^ w) : ¬ Below a m b := by
  rintro ⟨j, hj, hb⟩
  obtain ⟨k, hk, rfl⟩ := h
  have hzero : BitVec.ofNat w (k + (j + 1)) = 0#w := by
    have hsum := congrArg (· + BitVec.ofNat w (j + 1) - a) hb
    simp only [sub_add_cancel, sub_self, add_assoc, add_sub_cancel_left] at hsum
    rw [BitVec.ofNat_add, hsum]
    rfl
  have hnat := congrArg BitVec.toNat hzero
  rw [BitVec.toNat_ofNat, Nat.mod_eq_of_lt (by omega), BitVec.toNat_zero] at hnat
  omega

theorem not_of_le (hk : n ≤ k) (hroom : k < 2 ^ w) : ¬ Within a n (a + BitVec.ofNat w k) := by
  intro h
  have hlt := h.toNat_lt (by omega)
  rw [Memory.toNat_add_ofNat_sub a hroom] at hlt
  omega

end Within

namespace Memory

variable {w n k : Nat} {m m' : Memory w} {a b : BitVec w}

theorem write_of_not_within (h : ¬ Within a n b) (x : BitVec (8 * n)) :
    (m.write a n x) b = m b :=
  if_neg fun hlt => h (.of_toNat_lt hlt)

theorem write_self (m : Memory w) (a : BitVec w) (x : BitVec (8 * 1)) : (m.write a 1 x) a = x := by
  have hzero : (a - a).toNat = 0 := by simp
  rw [write, hzero, if_pos (by decide), BitVec.extractLsb'_eq_self]

/-! ## Text in memory -/

/-- The `n` bytes from an address on, as text. -/
def text (m : Memory w) (a : BitVec w) (n : Nat) : Text :=
  (List.range n).map fun i => UInt8.ofBitVec (m (a + BitVec.ofNat w i))

theorem text_one (m : Memory w) (a : BitVec w) : m.text a 1 = [UInt8.ofBitVec (m a)] := by
  simp [text]

theorem text_append (m : Memory w) (a : BitVec w) (n k : Nat) :
    m.text a (n + k) = m.text a n ++ m.text (a + BitVec.ofNat w n) k := by
  rw [text, List.range_add, List.map_append, List.map_map]
  refine congrArg (_ ++ ·) (List.map_congr_left fun i _ => ?_)
  rw [Function.comp_apply, BitVec.ofNat_add, BitVec.add_assoc]

theorem text_congr (h : ∀ b, Within a n b → m b = m' b) : m.text a n = m'.text a n :=
  List.map_congr_left fun i hi => by rw [h _ ⟨i, List.mem_range.mp hi, rfl⟩]

end Memory

end Assembly
