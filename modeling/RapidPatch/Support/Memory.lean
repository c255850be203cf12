import Mathlib.Tactic.Ring
import RapidPatch.Support.Bytes

/-!
Little-endian byte memory with 32-bit addresses.

A memory is a function from addresses to bytes, total because the models
above it decide for themselves which addresses they may touch. Address
arithmetic wraps, so the lemmas about a store ask for distances rather than
for an order: `loadLE_storeLE` reads a number back, and
`load32_store32_of_disjoint` reads a word whose bytes the store misses.
`loadLE_add` and `storeLE_add` take an access apart. `bytesFrom` is the buffer
at a pointer, and `memcpy` writes a byte string to one.
-/

namespace RapidPatch.Support

/-- Byte memory with 32-bit addresses. -/
abbrev Mem := BitVec 32 → BitVec 8

/-- The little-endian number in the `n` bytes from `a` on. -/
def loadLE (m : Mem) (a : BitVec 32) : ℕ → ℕ
  | 0 => 0
  | n + 1 => (m a).toNat + 256 * loadLE m (a + 1) n

/-- The memory with the low `n` bytes of `v` stored from `a` on. -/
def storeLE (m : Mem) (a : BitVec 32) (n v : ℕ) : Mem := fun x =>
  if (x - a).toNat < n then BitVec.ofNat 8 (v / 256 ^ (x - a).toNat) else m x

/-- The word at `a`. -/
def load32 (m : Mem) (a : BitVec 32) : BitVec 32 := BitVec.ofNat 32 (loadLE m a 4)

/-- The memory with a word stored at `a`. -/
def store32 (m : Mem) (a v : BitVec 32) : Mem := storeLE m a 4 v.toNat

def bytesFrom (m : Mem) (p : BitVec 32) (i : ℕ) : BitVec 8 := m (p + BitVec.ofNat 32 i)

def memcpy (m : Mem) (p : BitVec 32) (bytes : List (BitVec 8)) : Mem := fun a =>
  bytes.getD (a - p).toNat (m a)

theorem bytesFrom_memcpy (m : Mem) (p : BitVec 32) (bytes : List (BitVec 8)) {i : ℕ}
    (hi : i < 2 ^ 32) : bytesFrom (memcpy m p bytes) p i = overlay bytes (bytesFrom m p) i := by
  have hdist : (p + BitVec.ofNat 32 i - p).toNat = i := by
    rw [BitVec.add_comm, BitVec.add_sub_cancel, BitVec.toNat_ofNat, Nat.mod_eq_of_lt hi]
  rw [bytesFrom, memcpy, hdist]
  rfl

/-- What is copied stands there, if it has room in the address space. -/
theorem hasAt_memcpy (m : Mem) (p : BitVec 32) {bytes : List (BitVec 8)}
    (hlen : bytes.length ≤ 2 ^ 32) : HasAt (bytesFrom (memcpy m p bytes) p) 0 bytes := by
  intro i hi
  rw [Nat.zero_add, bytesFrom_memcpy m p bytes (hi.trans_le hlen)]
  exact overlay_of_lt hi

theorem storeLE_apply_add (m : Mem) (a : BitVec 32) {n v i : ℕ} (hi : i < n)
    (hw : i < 2 ^ 32) :
    storeLE m a n v (a + BitVec.ofNat 32 i) = BitVec.ofNat 8 (v / 256 ^ i) := by
  have hdist : (a + BitVec.ofNat 32 i - a).toNat = i := by
    rw [BitVec.add_comm, BitVec.add_sub_cancel, BitVec.toNat_ofNat, Nat.mod_eq_of_lt hw]
  simp only [storeLE, hdist, hi, if_true]

theorem loadLE_congr {m m' : Mem} {a : BitVec 32} {n : ℕ}
    (h : ∀ i < n, m (a + BitVec.ofNat 32 i) = m' (a + BitVec.ofNat 32 i)) :
    loadLE m a n = loadLE m' a n := by
  induction n generalizing a with
  | zero => rfl
  | succ n ih =>
      have h0 := h 0 n.succ_pos
      simp only [BitVec.add_zero] at h0
      have hrest : loadLE m (a + 1) n = loadLE m' (a + 1) n := by
        apply ih
        intro i hi
        have hs := h (i + 1) (Nat.succ_lt_succ hi)
        have haddr : a + BitVec.ofNat 32 (i + 1) = a + 1 + BitVec.ofNat 32 i := by
          rw [BitVec.add_assoc, Nat.add_comm i 1, BitVec.ofNat_add]
          rfl
        rwa [haddr] at hs
      simp only [loadLE, h0, hrest]

theorem loadLE_lt (m : Mem) (a : BitVec 32) (n : ℕ) : loadLE m a n < 256 ^ n := by
  induction n generalizing a with
  | zero => exact Nat.one_pos
  | succ n ih =>
      have hbyte := (m a).isLt
      have hrest := ih (a + 1)
      rw [loadLE, pow_succ]
      omega

theorem loadLE_add (m : Mem) (a : BitVec 32) (k n : ℕ) :
    loadLE m a (k + n) = loadLE m a k + 256 ^ k * loadLE m (a + BitVec.ofNat 32 k) n := by
  induction k generalizing a with
  | zero => simp [loadLE]
  | succ k ih =>
      have haddr : a + 1 + BitVec.ofNat 32 k = a + BitVec.ofNat 32 (k + 1) := by
        rw [BitVec.add_assoc, Nat.add_comm k 1, BitVec.ofNat_add]
        rfl
      rw [Nat.add_right_comm, loadLE, ih, haddr, loadLE]
      ring

theorem loadLE_byte (m : Mem) (a : BitVec 32) (n : ℕ) {w : ℕ} (hw : 8 ≤ w) :
    (BitVec.ofNat w (loadLE m a (n + 1))).setWidth 8 = m a := by
  rw [BitVec.setWidth_ofNat_of_le hw, loadLE]
  apply BitVec.eq_of_toNat_eq
  have hbyte := (m a).isLt
  rw [BitVec.toNat_ofNat]
  omega

theorem loadLE_of_bytes {m : Mem} {a : BitVec 32} {n v : ℕ}
    (h : ∀ i < n, m (a + BitVec.ofNat 32 i) = BitVec.ofNat 8 (v / 256 ^ i)) :
    loadLE m a n = v % 256 ^ n := by
  induction n generalizing a v with
  | zero => simp [loadLE, Nat.mod_one]
  | succ n ih =>
      have h0 : m a = BitVec.ofNat 8 v := by simpa using h 0 n.succ_pos
      have hrest : loadLE m (a + 1) n = v / 256 % 256 ^ n := by
        apply ih
        intro i hi
        have haddr : a + 1 + BitVec.ofNat 32 i = a + BitVec.ofNat 32 (i + 1) := by
          rw [BitVec.add_assoc, Nat.add_comm i 1, BitVec.ofNat_add]
          rfl
        rw [haddr, h (i + 1) (Nat.succ_lt_succ hi), Nat.div_div_eq_div_mul, pow_succ']
      rw [loadLE, h0, hrest, BitVec.toNat_ofNat]
      show v % 256 + 256 * (v / 256 % 256 ^ n) = v % 256 ^ (n + 1)
      rw [pow_succ', Nat.mod_mul]

/-- What was just stored is read back. -/
theorem loadLE_storeLE (m : Mem) (a : BitVec 32) {n : ℕ} (hn : n ≤ 2 ^ 32) (v : ℕ) :
    loadLE (storeLE m a n v) a n = v % 256 ^ n :=
  loadLE_of_bytes fun i hi => storeLE_apply_add m a hi (by omega)

@[simp] theorem load32_store32 (m : Mem) (a v : BitVec 32) :
    load32 (store32 m a v) a = v := by
  apply BitVec.eq_of_toNat_eq
  have hv := v.isLt
  rw [load32, store32, loadLE_storeLE m a (by decide), BitVec.toNat_ofNat]
  omega

theorem storeLE_congr (m : Mem) (a : BitVec 32) {n v w : ℕ} (h : v % 256 ^ n = w % 256 ^ n) :
    storeLE m a n v = storeLE m a n w := by
  funext x
  simp only [storeLE]
  split
  · rename_i hx
    have hdvd : 256 ^ ((x - a).toNat + 1) ∣ 256 ^ n := Nat.pow_dvd_pow 256 hx
    have hcut : v % 256 ^ ((x - a).toNat + 1) = w % 256 ^ ((x - a).toNat + 1) := by
      rw [← Nat.mod_mod_of_dvd v hdvd, h, Nat.mod_mod_of_dvd w hdvd]
    apply BitVec.eq_of_toNat_eq
    rw [BitVec.toNat_ofNat, BitVec.toNat_ofNat]
    show v / 256 ^ (x - a).toNat % 256 = w / 256 ^ (x - a).toNat % 256
    rw [← Nat.mod_mul_right_div_self, ← Nat.mod_mul_right_div_self, ← pow_succ, hcut]
  · rfl

/-- A store of a number is a store of its low bytes and one of the rest. -/
theorem storeLE_add (m : Mem) (a : BitVec 32) {k n : ℕ} (hkn : k + n ≤ 2 ^ 32) (v : ℕ) :
    storeLE m a (k + n) v =
      storeLE (storeLE m a k v) (a + BitVec.ofNat 32 k) n (v / 256 ^ k) := by
  funext x
  have hlt := (x - a).isLt
  simp only [storeLE, ← BitVec.sub_sub]
  generalize x - a = d at hlt ⊢
  by_cases hk : d.toNat < k
  · have hsub : ¬(d - BitVec.ofNat 32 k).toNat < n := by
      rw [BitVec.toNat_sub, BitVec.toNat_ofNat]
      omega
    rw [if_neg hsub, if_pos hk, if_pos (by omega)]
  · have hsub : (d - BitVec.ofNat 32 k).toNat = d.toNat - k := by
      rw [BitVec.toNat_sub, BitVec.toNat_ofNat]
      omega
    rw [hsub, if_neg hk, Nat.div_div_eq_div_mul, ← pow_add, Nat.add_sub_cancel' (by omega)]
    by_cases hkn : d.toNat < k + n
    · rw [if_pos hkn, if_pos (by omega)]
    · rw [if_neg hkn, if_neg (by omega)]

theorem storeLE_val_inj {m : Mem} {a : BitVec 32} {n v w : ℕ} (hn : n ≤ 2 ^ 32)
    (h : ∀ x, (x - a).toNat < n → storeLE m a n w x = storeLE m a n v x) :
    w % 256 ^ n = v % 256 ^ n := by
  rw [← loadLE_storeLE m a hn w, ← loadLE_storeLE m a hn v]
  refine loadLE_congr fun i hi => h _ ?_
  rw [BitVec.add_comm, BitVec.add_sub_cancel, BitVec.toNat_ofNat]
  exact (Nat.mod_le _ _).trans_lt hi

/-- Stores that agree where they write: bytes that were not there before tell
their addresses apart. -/
theorem storeLE_inj {m : Mem} {a b : BitVec 32} {n v w : ℕ} (hpos : 0 < n) (hn : n ≤ 2 ^ 31)
    (ha : m a ≠ BitVec.ofNat 8 v) (hb : b ≠ a → m b ≠ BitVec.ofNat 8 w)
    (h : ∀ x, x = b ∨ (x - a).toNat < n → storeLE m b n w x = storeLE m a n v x) :
    b = a ∧ w % 256 ^ n = v % 256 ^ n := by
  have hzero : (a - a).toNat < n := by simpa using hpos
  have hfirst : ∀ (x : BitVec 32) (u : ℕ), storeLE m x n u x = BitVec.ofNat 8 u := by
    intro x u
    simp [storeLE, hpos]
  have heq : b = a := by
    by_contra hne
    have hab : (a - b).toNat < n := by
      by_contra hfar
      have hbyte := h a (Or.inr hzero)
      rw [hfirst, storeLE, if_neg hfar] at hbyte
      exact ha hbyte
    have hba : (b - a).toNat < n := by
      by_contra hfar
      have hbyte := h b (Or.inl rfl)
      rw [hfirst, storeLE, if_neg hfar] at hbyte
      exact hb hne hbyte.symm
    bv_omega
  subst heq
  exact ⟨rfl, storeLE_val_inj (by omega) fun x hx => h x (Or.inr hx)⟩

theorem cover_eight {a b c : BitVec 32} (h : ∀ k < 8, (a + BitVec.ofNat 32 k - b).toNat < 4 ∨
    (a + BitVec.ofNat 32 k - c).toNat < 4) : b = a ∧ c = a + 4 ∨ b = a + 4 ∧ c = a := by
  -- bytes that are four apart are in different runs
  rcases h 0 (by decide) with h0 | h0
  · have h4 := (h 4 (by decide)).resolve_left (by bv_omega)
    have h7 := (h 7 (by decide)).resolve_left (by bv_omega)
    have h3 := (h 3 (by decide)).resolve_right (by bv_omega)
    left
    constructor <;> bv_omega
  · have h4 := (h 4 (by decide)).resolve_right (by bv_omega)
    have h7 := (h 7 (by decide)).resolve_right (by bv_omega)
    have h3 := (h 3 (by decide)).resolve_left (by bv_omega)
    right
    constructor <;> bv_omega

/-- A store leaves the words it does not touch alone. -/
theorem load32_store32_of_disjoint (m : Mem) (a b v : BitVec 32)
    (hab : 4 ≤ (b - a).toNat) (hba : 4 ≤ (a - b).toNat) :
    load32 (store32 m a v) b = load32 m b := by
  have hcongr : loadLE (storeLE m a 4 v.toNat) b 4 = loadLE m b 4 := by
    apply loadLE_congr
    intro i hi
    have hfar : ¬(b + BitVec.ofNat 32 i - a).toNat < 4 := by
      have hi' : (BitVec.ofNat 32 i).toNat = i := by
        rw [BitVec.toNat_ofNat, Nat.mod_eq_of_lt (by omega)]
      bv_omega
    simp only [storeLE, hfar, if_false]
  simp only [load32, store32, hcongr]

end RapidPatch.Support
