import RapidPatch.Hotpatch.Flash
import RapidPatch.Support.Align

/-!
The bounds of `STMFLASH_BUF`.

These are the variables of the loop of `flash_port_write` as the code has
them: words of 32 bits, which the range check lets wrap, and `int`s, which
must not overflow. The first turn is always inside `STMFLASH_BUF`, its sector
and the caller's bytes. If it is not the last, it copies
`2048 - 16 * secoff - a` bytes, `a` being the distance to the last double word:
late in a sector that is negative, and `buf` moves to before its start. With a
whole sector left the last turn programs a double word too many. Everything
else stays inside (`staging_inBounds_iff`). Where nothing wraps or overflows,
these turns are the sectors of `Hotpatch.Flash`, whose variables are numbers
(`reaches_ofSector`).
-/

namespace RapidPatch.Hotpatch

open RapidPatch.Support

/-! ### The loop in 32 bits -/

/-- The result of an `int` operation. Overflow is undefined. -/
def intOf (x : ℤ) : Option ℤ := if -2 ^ 31 ≤ x ∧ x < 2 ^ 31 then some x else none

@[ext]
structure SectorTurn where
  secid : BitVec 32
  startAddr : BitVec 32
  startPos : ℤ
  size : ℤ
  /-- How far `buf` has been moved. -/
  buf : ℤ
  totalDw : BitVec 32
  writeDw : BitVec 32

inductive TurnEnd
  | finished
  | overflow

namespace SectorTurn

def alignedStart (faddr : BitVec 32) : BitVec 32 := faddr &&& 0xFFFFFFF8

def alignedEnd (faddr : BitVec 32) (size : ℤ) : BitVec 32 :=
  (faddr + BitVec.ofInt 32 size + 8) &&& 0xFFFFFFF8

def Accepted (faddr : BitVec 32) (size : ℤ) : Prop :=
  ¬(alignedStart faddr < BitVec.ofNat 32 flashStartAdress ∨
    alignedEnd faddr size > BitVec.ofNat 32 flashEndAddress)

instance (faddr : BitVec 32) (size : ℤ) : Decidable (Accepted faddr size) :=
  inferInstanceAs (Decidable (¬_))

def first (faddr : BitVec 32) (size : ℤ) : SectorTurn :=
  let startAddr := alignedStart faddr
  let endAddr := alignedEnd faddr size
  let offaddr := startAddr - BitVec.ofNat 32 flashStartAdress
  let secoff := offaddr % 2048 / 8
  let secRemain := 2048 / 8 - secoff
  let totalDw := (endAddr - startAddr) / 8
  { secid := offaddr / 2048
    startAddr := startAddr
    startPos := (secoff * 8 + (faddr - startAddr)).toInt
    size := size
    buf := 0
    totalDw := totalDw
    writeDw := if totalDw ≤ secRemain then totalDw else secRemain }

/-- `write_bytes`. The subtraction is one of words. -/
def writeBytes (v : SectorTurn) : ℤ :=
  let writeBytes := (v.writeDw * 8 - BitVec.ofInt 32 v.startPos).toInt
  if v.size < writeBytes then v.size else writeBytes

/-- The next sector, with `size` bytes left. -/
def advance (v : SectorTurn) (size left : ℤ) : SectorTurn :=
  let totalDw := BitVec.ofInt 32 (left.tdiv 8)
  { secid := v.secid + 1
    startAddr := v.startAddr + v.writeDw * 8
    startPos := 0
    size := size
    buf := v.buf + v.writeBytes
    totalDw := totalDw
    writeDw := if size > stmSectorSize then 2048 / 8 else totalDw }

def next (v : SectorTurn) : Option SectorTurn := do
  let size ← intOf (v.size - v.writeBytes)
  let left ← intOf (size + 8)
  return v.advance size left

/-- One turn, in which the sector is erased and programmed. A turn that fails
is the last. -/
def turn (v : SectorTurn) : Next SectorTurn TurnEnd :=
  if v.writeDw = v.totalDw then .stop .finished
  else
    match v.next with
    | some v' => .cont v'
    | none => .stop .overflow

def base (v : SectorTurn) : BitVec 32 := v.secid * 2048 + BitVec.ofNat 32 flashStartAdress

/-- What a turn reads and writes: `STMFLASH_BUF`, the sector it has erased, and
the caller's `size` bytes. -/
structure Inside (size : ℤ) (v : SectorTurn) : Prop where
  staged : ∀ i, 0 ≤ i → i < v.writeBytes → 0 ≤ v.startPos + i ∧ v.startPos + i < stmSectorSize
  read : v.writeDw.toInt ≤ 256
  programmed : ∀ i : ℕ, i < v.writeDw.toInt →
    ∃ k < 256, v.startAddr + BitVec.ofNat 32 (8 * i) = v.base + BitVec.ofNat 32 (8 * k)
  source : ∀ i, 0 ≤ i → i < v.writeBytes → 0 ≤ v.buf + i ∧ v.buf + i < size

/-- All turns from some variables on stay inside, and no `int` overflows. -/
def InBounds (size : ℤ) (v : SectorTurn) : Prop :=
  ∀ u, Reaches turn v u → u.Inside size ∧ turn u ≠ .stop .overflow

/-! ### The first turn -/

def pad (faddr : BitVec 32) : ℕ := faddr.toNat % 8

def secoff (faddr : BitVec 32) : ℕ := faddr.toNat / 8 % 256

variable {faddr : BitVec 32} {size : ℤ}

theorem toNat_eight : (8 : BitVec 32).toNat = 8 := rfl

theorem toNat_sectorSize : (2048 : BitVec 32).toNat = 2048 := rfl

theorem toNat_and_high (x : BitVec 32) : (x &&& 0xFFFFFFF8).toNat = x.toNat / 8 * 8 :=
  toNat_and_not_low x 3

section

theorem toNat_alignedStart (faddr : BitVec 32) :
    (alignedStart faddr).toNat = faddr.toNat / 8 * 8 := toNat_and_high faddr

theorem toNat_alignedEnd (faddr : BitVec 32) (n : ℕ) :
    (alignedEnd faddr n).toNat = (faddr.toNat + n + 8) % 2 ^ 32 / 8 * 8 := by
  rw [alignedEnd, toNat_and_high, BitVec.toNat_add, BitVec.toNat_add, BitVec.ofInt_natCast,
    BitVec.toNat_ofNat, toNat_eight]
  omega

theorem toNat_offaddr (h : Accepted faddr size) :
    (alignedStart faddr - BitVec.ofNat 32 flashStartAdress).toNat =
      faddr.toNat / 8 * 8 - 0x08000000 ∧ 0x08000000 ≤ faddr.toNat / 8 * 8 := by
  rw [Accepted, not_or, BitVec.not_lt] at h
  have hle : 0x08000000 ≤ (alignedStart faddr).toNat := h.1
  rw [toNat_alignedStart] at hle
  refine ⟨?_, hle⟩
  rw [BitVec.toNat_sub_of_le h.1, toNat_alignedStart]
  rfl

theorem toNat_secoff (h : Accepted faddr size) :
    ((alignedStart faddr - BitVec.ofNat 32 flashStartAdress) % 2048 / 8).toNat = secoff faddr := by
  obtain ⟨hoff, hle⟩ := toNat_offaddr h
  rw [BitVec.toNat_udiv, BitVec.toNat_umod, hoff, secoff, toNat_eight, toNat_sectorSize]
  omega

theorem toNat_totalDw (faddr : BitVec 32) {n : ℕ} (hn : n < 2 ^ 31) :
    ((alignedEnd faddr n - alignedStart faddr) / 8).toNat = (pad faddr + n + 8) / 8 := by
  have hfaddr := faddr.isLt
  rw [BitVec.toNat_udiv, BitVec.toNat_sub, toNat_alignedEnd, toNat_alignedStart, pad, toNat_eight]
  omega

end

/-- The variables of the first turn as numbers. -/
structure FirstTurn (faddr : BitVec 32) (size : ℤ) (v : SectorTurn) : Prop where
  startAddr_eq : v.startAddr = v.base + BitVec.ofNat 32 (8 * secoff faddr)
  startPos_eq : v.startPos = 8 * secoff faddr + pad faddr
  size_eq : v.size = size
  buf_eq : v.buf = 0
  totalDw_eq : (v.totalDw.toNat : ℤ) = (pad faddr + size + 8) / 8
  writeDw_eq : v.writeDw.toNat = min v.totalDw.toNat (256 - secoff faddr)

theorem firstTurn_first (hpos : 1 ≤ size) (hint : size < 2 ^ 31) (h : Accepted faddr size) :
    FirstTurn faddr size (first faddr size) := by
  obtain ⟨n, rfl⟩ := Int.eq_ofNat_of_zero_le (show 0 ≤ size by omega)
  have hfaddr := faddr.isLt
  have h256 : (2048 / 8 : BitVec 32).toNat = 256 := rfl
  have hsecoff : secoff faddr < 256 := Nat.mod_lt _ (by decide)
  constructor
  · obtain ⟨hoff, hle⟩ := toNat_offaddr h
    apply BitVec.eq_of_toNat_eq
    have hstart : (first faddr n).startAddr.toNat = faddr.toNat / 8 * 8 := toNat_alignedStart faddr
    have hsecid : (first faddr n).secid.toNat = (faddr.toNat / 8 * 8 - 0x08000000) / 2048 := by
      rw [first, BitVec.toNat_udiv, hoff, toNat_sectorSize]
    rw [base, hstart, BitVec.toNat_add, BitVec.toNat_add, BitVec.toNat_mul, hsecid,
      toNat_sectorSize, BitVec.toNat_ofNat, BitVec.toNat_ofNat, secoff, flashStartAdress]
    omega
  · have hpos : ((alignedStart faddr - BitVec.ofNat 32 flashStartAdress) % 2048 / 8 * 8 +
        (faddr - alignedStart faddr)).toNat = 8 * secoff faddr + pad faddr := by
      rw [BitVec.toNat_add, BitVec.toNat_mul, toNat_secoff h, BitVec.toNat_sub,
        toNat_alignedStart, toNat_eight, pad]
      omega
    have hpad : pad faddr < 8 := Nat.mod_lt _ (by decide)
    rw [first, BitVec.toInt_eq_toNat_of_lt (by rw [hpos]; omega), hpos]
    rfl
  · rfl
  · rfl
  · have htotal : (first faddr n).totalDw.toNat = (pad faddr + n + 8) / 8 :=
      toNat_totalDw faddr (by omega)
    rw [htotal]
    omega
  · have hremain : (2048 / 8 - (alignedStart faddr - BitVec.ofNat 32 flashStartAdress) % 2048 / 8 :
        BitVec 32).toNat = 256 - secoff faddr := by
      rw [BitVec.toNat_sub_of_le, toNat_secoff h, h256]
      rw [BitVec.le_def, toNat_secoff h, h256]
      omega
    rw [first, Nat.min_def]
    simp only [BitVec.le_def, hremain, apply_ite BitVec.toNat]

variable {v v' : SectorTurn}

theorem secoff_lt (faddr : BitVec 32) : secoff faddr < 256 := Nat.mod_lt _ (by decide)

theorem pad_lt (faddr : BitVec 32) : pad faddr < 8 := Nat.mod_lt _ (by decide)

theorem toInt_of_lt {x : BitVec 32} {n : ℕ} (h : x.toNat = n) (hn : n < 2 ^ 31) :
    x.toInt = n := by
  rw [BitVec.toInt_eq_toNat_of_lt (by rw [h]; omega), h]

theorem writeBytes_eq {dw : ℕ} (hdw : v.writeDw.toNat = dw) (hlt : dw < 512)
    (hpos : 0 ≤ v.startPos) (hpos' : v.startPos < 2 * 2048) :
    v.writeBytes = min v.size (8 * dw - v.startPos) := by
  have hbytes : (v.writeDw * 8).toInt = (8 * dw : ℕ) := by
    refine toInt_of_lt ?_ (by omega)
    rw [BitVec.toNat_mul, hdw, toNat_eight]
    omega
  have hstart : (BitVec.ofInt 32 v.startPos).toInt = v.startPos := by
    rw [BitVec.toInt_ofInt]
    exact Int.bmod_eq_of_le_mul_two (by omega) (by omega)
  have hwords : (v.writeDw * 8 - BitVec.ofInt 32 v.startPos).toInt = 8 * dw - v.startPos := by
    rw [BitVec.toInt_sub, hbytes, hstart]
    exact Int.bmod_eq_of_le_mul_two (by omega) (by omega)
  simp only [writeBytes, hwords]
  omega

/-- A turn that programs a part of its sector, and copies what is there of the
caller's bytes, is inside. -/
theorem inside_of {dw off : ℕ} (hdw : v.writeDw.toNat = dw) (hoff : off + dw ≤ 256)
    (haddr : v.startAddr = v.base + BitVec.ofNat 32 (8 * off)) (hpos : 0 ≤ v.startPos)
    (hpos' : v.startPos < 2 * 2048) (hbuf : 0 ≤ v.buf ∨ v.size = 0)
    (hsum : v.buf + v.size = size) : v.Inside size := by
  have hbytes := writeBytes_eq hdw (by omega) hpos hpos'
  have hwords := toInt_of_lt hdw (by omega)
  constructor
  · intro i hi hlt
    unfold stmSectorSize
    omega
  · omega
  · intro i hi
    refine ⟨off + i, by omega, ?_⟩
    rw [haddr, BitVec.add_assoc, ← BitVec.ofNat_add, Nat.mul_add]
  · intro i hi hlt
    omega

theorem FirstTurn.inside (h : FirstTurn faddr size v) : v.Inside size := by
  have hoff := secoff_lt faddr
  have hpad := pad_lt faddr
  have hpos := h.startPos_eq
  have hbuf := h.buf_eq
  have hsize := h.size_eq
  refine inside_of h.writeDw_eq (by omega) h.startAddr_eq ?_ ?_ (Or.inl hbuf.ge) ?_
  · omega
  · omega
  · omega

/-! ### The other turns -/

/-- What every later turn finds. -/
structure Later (size : ℤ) (v : SectorTurn) : Prop where
  startAddr_eq : v.startAddr = v.base
  startPos_eq : v.startPos = 0
  nonneg : 0 ≤ v.size
  left_lt : v.size + 8 < 2 ^ 31
  sum_eq : v.buf + v.size = size
  totalDw_eq : v.totalDw.toNat = (v.size + 8) / 8
  writeDw_eq : v.writeDw = if v.size > stmSectorSize then 2048 / 8 else v.totalDw

theorem next_eq_advance (hnonneg : 0 ≤ v.size - v.writeBytes)
    (hlt : v.size - v.writeBytes + 8 < 2 ^ 31) :
    v.next = some (v.advance (v.size - v.writeBytes) (v.size - v.writeBytes + 8)) := by
  have hint : intOf (v.size - v.writeBytes) = some (v.size - v.writeBytes) := if_pos (by omega)
  have hint8 : intOf (v.size - v.writeBytes + 8) = some (v.size - v.writeBytes + 8) :=
    if_pos (by omega)
  simp only [next, hint, hint8, Option.bind_eq_bind, Option.bind_some, Option.pure_def]

theorem next_eq_none (hge : 2 ^ 31 ≤ v.size - v.writeBytes + 8) : v.next = none := by
  have hint8 : intOf (v.size - v.writeBytes + 8) = none := if_neg (by omega)
  rw [next]
  by_cases hint : v.size - v.writeBytes < 2 ^ 31
  · have hsize : intOf (v.size - v.writeBytes) = some (v.size - v.writeBytes) := if_pos (by omega)
    simp only [hsize, hint8, Option.bind_eq_bind, Option.bind_some, Option.bind_none]
  · have hsize : intOf (v.size - v.writeBytes) = none := if_neg (by omega)
    rw [hsize]
    rfl

theorem toNat_ofInt_tdiv {left : ℤ} (hnonneg : 0 ≤ left) (hlt : left < 2 ^ 31) :
    (BitVec.ofInt 32 (left.tdiv 8)).toNat = (left / 8).toNat := by
  rw [Int.tdiv_eq_ediv_of_nonneg hnonneg, BitVec.toNat_ofInt]
  omega

/-- Behind a turn that has reached the end of its sector, `int` overflows or
the next turn starts with the next sector. -/
theorem next_cases (haddr : v.startAddr + v.writeDw * 8 = v.base + 2048)
    (hnonneg : 0 ≤ v.size - v.writeBytes) (hsum : v.buf + v.size = size) :
    (2 ^ 31 ≤ v.size - v.writeBytes + 8 ∧ v.next = none) ∨
      ∃ v', v.size - v.writeBytes + 8 < 2 ^ 31 ∧ v.next = some v' ∧ Later size v' ∧
        v'.size = v.size - v.writeBytes ∧ v'.buf = v.buf + v.writeBytes := by
  rcases Int.lt_or_le (v.size - v.writeBytes + 8) (2 ^ 31) with hlt | hge
  · right
    refine ⟨_, hlt, next_eq_advance hnonneg hlt, ?_, rfl, rfl⟩
    constructor
    · change v.startAddr + v.writeDw * 8 = (v.secid + 1) * 2048 + _
      have hone : (1 : BitVec 32) * 2048 = 2048 := rfl
      rw [haddr, base, BitVec.add_mul, hone]
      ac_rfl
    · rfl
    · exact hnonneg
    · exact hlt
    · change v.buf + v.writeBytes + (v.size - v.writeBytes) = size
      omega
    · change ((BitVec.ofInt 32 ((v.size - v.writeBytes + 8).tdiv 8)).toNat : ℤ) =
        (v.size - v.writeBytes + 8) / 8
      rw [toNat_ofInt_tdiv (by omega) hlt]
      omega
    · rfl
  · exact Or.inl ⟨hge, next_eq_none hge⟩

namespace Later

variable (h : Later size v)
include h

theorem writeDw_of_big (hbig : 2048 < v.size) : v.writeDw = 256 := h.writeDw_eq.trans (if_pos hbig)

theorem writeDw_of_le (hle : v.size ≤ 2048) : v.writeDw = v.totalDw :=
  h.writeDw_eq.trans (if_neg (Int.not_lt.mpr hle))

/-- A turn copies what is left, up to a sector, and programs up to 257 double
words. -/
theorem turn_eq : v.writeBytes = min v.size 2048 ∧
    (v.writeDw.toNat : ℤ) = if 2048 < v.size then 256 else (v.size + 8) / 8 := by
  have hnonneg := h.nonneg
  have hpos := h.startPos_eq
  have hdw : (v.writeDw.toNat : ℤ) = if 2048 < v.size then 256 else (v.size + 8) / 8 := by
    rcases Int.lt_or_le 2048 v.size with hbig | hle
    · rw [if_pos hbig, h.writeDw_of_big hbig]
      rfl
    · rw [if_neg (Int.not_lt.mpr hle), h.writeDw_of_le hle, h.totalDw_eq]
  refine ⟨?_, hdw⟩
  rw [writeBytes_eq rfl (by split at hdw <;> omega) hpos.ge (by omega)]
  split at hdw <;> omega

/-- The last turn is the one with at most a sector left; the others go on with
the next sector. -/
theorem turn_big (hbig : 2048 < v.size) :
    ∃ v', turn v = .cont v' ∧ Later size v' ∧ v'.size = v.size - 2048 ∧ v'.buf = v.buf + 2048 := by
  have hlt := h.left_lt
  obtain ⟨hcopied, hdw⟩ := h.turn_eq
  rw [if_pos hbig] at hdw
  rw [min_eq_right hbig.le] at hcopied
  have hend : v.startAddr + v.writeDw * 8 = v.base + 2048 := by
    rw [h.startAddr_eq, h.writeDw_of_big hbig]
    rfl
  rcases next_cases hend (by omega) h.sum_eq with ⟨hover, -⟩ | ⟨v', -, hnext, hlater, hsize, hbuf⟩
  · omega
  · refine ⟨v', ?_, hlater, hcopied ▸ hsize, hcopied ▸ hbuf⟩
    have hmore : v.writeDw ≠ v.totalDw := by
      rintro heq
      have htotal := h.totalDw_eq
      rw [← heq] at htotal
      omega
    rw [turn, if_neg hmore, hnext]

theorem turn_last (hle : v.size ≤ 2048) : turn v = .stop .finished := by
  rw [turn, if_pos (h.writeDw_of_le hle)]

theorem inside_iff : v.Inside size ↔ (0 ≤ v.buf ∨ v.size = 0) ∧ v.size ≠ 2048 := by
  have hnonneg := h.nonneg
  have hpos := h.startPos_eq
  obtain ⟨hcopied, hdw⟩ := h.turn_eq
  constructor
  · intro hinside
    have hread := hinside.read
    have hwords := toInt_of_lt (x := v.writeDw) rfl (by split at hdw <;> omega)
    refine ⟨?_, by split at hdw <;> omega⟩
    rcases hnonneg.eq_or_lt with hzero | hsome
    · exact Or.inr hzero.symm
    · have hfirst := (hinside.source 0 le_rfl (by omega)).1
      exact Or.inl (by omega)
  · rintro ⟨hbuf, hfull⟩
    have haddr : v.startAddr = v.base + BitVec.ofNat 32 (8 * 0) :=
      h.startAddr_eq.trans (BitVec.add_zero _).symm
    exact inside_of rfl (by split at hdw <;> omega) haddr hpos.ge (by omega) hbuf h.sum_eq

/-- A later turn, and those behind it, stay inside unless `buf` has moved to
before its start or a whole sector is left in the end. -/
theorem inBounds_iff :
    InBounds size v ↔ (0 ≤ v.buf ∨ v.size = 0) ∧ (v.size = 0 ∨ v.size % 2048 ≠ 0) := by
  induction hn : v.size.toNat using Nat.strongRecOn generalizing v with
  | ind n ih =>
      have hnonneg := h.nonneg
      rcases Int.lt_or_le 2048 v.size with hbig | hle
      · obtain ⟨v', hturn, hlater, hsize, hbuf⟩ := h.turn_big hbig
        have hgoes : turn v ≠ .stop .overflow := by
          rw [hturn]
          nofun
        rw [InBounds, Reaches.forall_cont_iff hturn, ← InBounds, ih _ (by omega) hlater rfl,
          h.inside_iff, and_iff_left hgoes]
        omega
      · have hturn := h.turn_last hle
        have hgoes : turn v ≠ .stop .overflow := by
          rw [hturn]
          nofun
        rw [InBounds, Reaches.forall_stop_iff hturn, h.inside_iff, and_iff_left hgoes]
        omega

end Later

/-! ### All turns -/

/-- The ranges that are written inside the bounds. Those that end in the sector
they start in, and those that start no later than in the middle of a sector
and do not leave a whole sector to the last turn. -/
def StagingFits (faddr : BitVec 32) (size : ℤ) : Prop :=
  (pad faddr + size + 8) / 8 ≤ 256 - secoff faddr ∨
    16 * secoff faddr + pad faddr ≤ 2048 ∧
      (size + 16 * secoff faddr + pad faddr ≤ 2048 ∨
        (size + 16 * secoff faddr + pad faddr) % 2048 ≠ 0) ∧
      size + 16 * secoff faddr + pad faddr < 2 ^ 31 + 2040

namespace FirstTurn

variable (h : FirstTurn faddr size v)
include h

theorem turn_single (hfits : (pad faddr + size + 8) / 8 ≤ 256 - secoff faddr) :
    turn v = .stop .finished := by
  have htotal := h.totalDw_eq
  have hdw := h.writeDw_eq
  have heq : v.writeDw = v.totalDw := BitVec.eq_of_toNat_eq (by omega)
  rw [turn, if_pos heq]

/-- A longer range fills the first sector. What has been copied is negative if
the range starts late in it. -/
theorem turn_more (hmore : ¬(pad faddr + size + 8) / 8 ≤ 256 - secoff faddr) :
    (2 ^ 31 + 2040 ≤ size + 16 * secoff faddr + pad faddr ∧ turn v = .stop .overflow) ∨
      ∃ v', size + 16 * secoff faddr + pad faddr < 2 ^ 31 + 2040 ∧ turn v = .cont v' ∧
        Later size v' ∧ v'.size = size + 16 * secoff faddr + pad faddr - 2048 ∧
        v'.buf = 2048 - 16 * secoff faddr - pad faddr := by
  have hoff := secoff_lt faddr
  have hpad := pad_lt faddr
  have hpos := h.startPos_eq
  have hsize := h.size_eq
  have hbuf := h.buf_eq
  have htotal := h.totalDw_eq
  have hdw : v.writeDw.toNat = 256 - secoff faddr := by
    rw [h.writeDw_eq]
    omega
  have hcopied : v.writeBytes = 2048 - 16 * secoff faddr - pad faddr := by
    rw [writeBytes_eq hdw (by omega) (by omega) (by omega)]
    omega
  have hend : v.startAddr + v.writeDw * 8 = v.base + 2048 := by
    have hrest : BitVec.ofNat 32 (8 * secoff faddr) + v.writeDw * 8 = 2048 := by
      apply BitVec.eq_of_toNat_eq
      rw [BitVec.toNat_add, BitVec.toNat_mul, BitVec.toNat_ofNat, hdw, toNat_eight,
        toNat_sectorSize]
      omega
    rw [h.startAddr_eq, BitVec.add_assoc, hrest]
  have hne : v.writeDw ≠ v.totalDw := by
    intro heq
    rw [← heq, hdw] at htotal
    omega
  rw [turn, if_neg hne]
  rcases next_cases hend (by omega) (show v.buf + v.size = size by omega) with
    ⟨hover, hnext⟩ | ⟨v', hlt, hnext, hlater, hleft, hmoved⟩
  · rw [hnext]
    exact Or.inl ⟨by omega, rfl⟩
  · rw [hnext]
    exact Or.inr ⟨v', by omega, rfl, hlater, by omega, by omega⟩

end FirstTurn

/-- For a range that the check accepts, every turn stays inside exactly if the
range fits. -/
theorem staging_inBounds_iff (hpos : 1 ≤ size) (hint : size < 2 ^ 31)
    (haccepted : Accepted faddr size) :
    InBounds size (first faddr size) ↔ StagingFits faddr size := by
  have h := firstTurn_first hpos hint haccepted
  have hoff := secoff_lt faddr
  have hpad := pad_lt faddr
  by_cases hfits : (pad faddr + size + 8) / 8 ≤ 256 - secoff faddr
  · have hturn := h.turn_single hfits
    refine iff_of_true ?_ (Or.inl hfits)
    rw [InBounds, Reaches.forall_stop_iff hturn, hturn]
    exact ⟨h.inside, nofun⟩
  rw [StagingFits, or_iff_right hfits]
  rcases h.turn_more hfits with ⟨hover, hturn⟩ | ⟨v', hlt, hturn, hlater, hsize, hbuf⟩
  · rw [InBounds, Reaches.forall_stop_iff hturn]
    exact iff_of_false (fun hall => hall.2 hturn) (by omega)
  · have hgoes : turn (first faddr size) ≠ .stop .overflow := by
      rw [hturn]
      nofun
    rw [InBounds, Reaches.forall_cont_iff hturn, ← InBounds, hlater.inBounds_iff,
      and_iff_right ⟨h.inside, hgoes⟩]
    omega

theorem staging_inBounds_iff_byte : InBounds 1 (first 0x08000000 1) :=
  (staging_inBounds_iff (by decide) (by decide) (by decide)).mpr (Or.inl (by decide))

/-- Two whole sectors have the last turn program a double word too many. -/
theorem not_inside_sectors :
    Accepted 0x08000000 4096 ∧
      ¬∀ v, Reaches turn (first 0x08000000 4096) v → v.Inside 4096 := by
  have haccepted : Accepted 0x08000000 4096 := by decide
  refine ⟨haccepted, fun hall => ?_⟩
  have h := firstTurn_first (by decide) (by decide) haccepted
  have hmore : ¬(pad 0x08000000 + 4096 + 8 : ℤ) / 8 ≤ 256 - secoff 0x08000000 := by decide
  rcases h.turn_more hmore with ⟨hover, -⟩ | ⟨v, -, hturn, hlater, hsize, -⟩
  · exact absurd hover (by decide)
  · have hinside := hall v (.single hturn)
    exact (hlater.inside_iff.mp hinside).2 (hsize.trans (by decide))

/-! ### Sectors as numbers -/

/-- The variables of a sector, in 32 bits. -/
def ofSector (w : Sector) : SectorTurn where
  secid := BitVec.ofNat 32 w.secid
  startAddr := BitVec.ofNat 32 w.startAddr
  startPos := w.startPos
  size := w.size
  buf := w.buf
  totalDw := BitVec.ofNat 32 w.totalDw
  writeDw := BitVec.ofNat 32 w.writeDw

theorem first_eq_ofSector {faddr size : ℕ} (hpos : (1 : ℤ) ≤ size) (hsize : size < 2 ^ 31)
    (hend : faddr + size + 8 < 2 ^ 32) (haccepted : Accepted (BitVec.ofNat 32 faddr) size)
    (flash stmflashBuf : Contents) :
    first (BitVec.ofNat 32 faddr) size = ofSector (firstSector faddr size flash stmflashBuf) := by
  have hfaddr : (BitVec.ofNat 32 faddr).toNat = faddr := Nat.mod_eq_of_lt (by omega)
  obtain ⟨hoff, hle⟩ := toNat_offaddr haccepted
  rw [hfaddr] at hoff hle
  have h := firstTurn_first hpos (by omega) haccepted
  have hpad : pad (BitVec.ofNat 32 faddr) = faddr - faddr / 8 * 8 := by
    rw [pad, hfaddr]
    omega
  have hsecoff : secoff (BitVec.ofNat 32 faddr) =
      (faddr / 8 * 8 - flashStartAdress) % stmSectorSize / 8 := by
    rw [secoff, hfaddr, flashStartAdress, stmSectorSize]
    omega
  have htotal : (first (BitVec.ofNat 32 faddr) size).totalDw.toNat =
      ((faddr + size + 8) / 8 * 8 - faddr / 8 * 8) / 8 := by
    have heq := h.totalDw_eq
    rw [hpad] at heq
    omega
  have hdw := h.writeDw_eq
  rw [htotal, hsecoff] at hdw
  have hstartPos := h.startPos_eq
  rw [hsecoff, hpad] at hstartPos
  ext1
  · have hsecid : (ofSector (firstSector faddr size flash stmflashBuf)).secid =
        BitVec.ofNat 32 ((faddr / 8 * 8 - flashStartAdress) / stmSectorSize) := rfl
    apply BitVec.eq_of_toNat_eq
    rw [first, BitVec.toNat_udiv, hoff, toNat_sectorSize, hsecid, BitVec.toNat_ofNat,
      flashStartAdress, stmSectorSize]
    omega
  · apply BitVec.eq_of_toNat_eq
    refine (toNat_alignedStart _).trans ?_
    rw [hfaddr]
    exact (Nat.mod_eq_of_lt (by omega)).symm
  · rw [hstartPos]
    change _ = (((faddr / 8 * 8 - flashStartAdress) % stmSectorSize / 8 * 8 +
      (faddr - faddr / 8 * 8) : ℕ) : ℤ)
    omega
  · rfl
  · rfl
  · apply BitVec.eq_of_toNat_eq
    rw [htotal]
    exact (Nat.mod_eq_of_lt (by omega)).symm
  · apply BitVec.eq_of_toNat_eq
    have hnumber : (firstSector faddr size flash stmflashBuf).writeDw =
        min (((faddr + size + 8) / 8 * 8 - faddr / 8 * 8) / 8)
          (256 - (faddr / 8 * 8 - flashStartAdress) % stmSectorSize / 8) := (Nat.min_def ..).symm
    rw [hdw, ofSector, BitVec.toNat_ofNat, hnumber]
    omega

/-- What a sector has before every turn of a range that stays in 32 bits. -/
structure Small (w : Sector) : Prop where
  writeDw_lt : w.writeDw < 512
  totalDw_lt : w.totalDw < 2 ^ 32
  startPos_lt : w.startPos < 2 * 2048

theorem small_next {w : Sector} (hlt : w.size - w.writeBytes + 8 < 2 ^ 31)
    (flash stmflashBuf : Contents) : Small (w.next flash stmflashBuf) where
  writeDw_lt := by
    by_cases hbig : w.size - w.writeBytes > stmSectorSize
    · have hdw : (w.next flash stmflashBuf).writeDw = 256 := if_pos hbig
      omega
    · have hdw : (w.next flash stmflashBuf).writeDw = ((w.size - w.writeBytes + 8) / 8).toNat :=
        if_neg hbig
      unfold stmSectorSize at hbig
      omega
  totalDw_lt := by
    simp only [Sector.next]
    omega
  startPos_lt := show 0 < 2 * 2048 by decide

namespace Small

variable {w : Sector} (h : Small w)
include h

theorem writeBytes_ofSector : (ofSector w).writeBytes = w.writeBytes := by
  have hdw : (ofSector w).writeDw.toNat = w.writeDw :=
    Nat.mod_eq_of_lt (h.writeDw_lt.trans (by decide))
  rw [writeBytes_eq hdw h.writeDw_lt (Int.natCast_nonneg _) (Int.ofNat_lt.mpr h.startPos_lt)]
  change min w.size (8 * w.writeDw - w.startPos) = _
  simp only [Sector.writeBytes]
  omega

theorem left_ofSector :
    (ofSector w).size - (ofSector w).writeBytes = w.size - w.writeBytes ∧
      0 ≤ w.size - w.writeBytes := by
  rw [h.writeBytes_ofSector]
  refine ⟨rfl, ?_⟩
  simp only [Sector.writeBytes]
  omega

theorem next_ofSector (hlt : w.size - w.writeBytes + 8 < 2 ^ 31) (flash stmflashBuf : Contents) :
    (ofSector w).next = some (ofSector (w.next flash stmflashBuf)) := by
  obtain ⟨hsize, hnonneg⟩ := h.left_ofSector
  rw [next_eq_advance (by rwa [hsize]) (by rwa [hsize]), hsize]
  have htotal : BitVec.ofInt 32 ((w.size - w.writeBytes + 8).tdiv 8) =
      BitVec.ofNat 32 ((w.size - w.writeBytes + 8) / 8).toNat := by
    apply BitVec.eq_of_toNat_eq
    rw [toNat_ofInt_tdiv (by omega) hlt, BitVec.toNat_ofNat]
    omega
  have hmoved : (ofSector w).buf + (ofSector w).writeBytes = w.buf + w.writeBytes := by
    rw [h.writeBytes_ofSector]
    rfl
  simp only [advance, htotal, hmoved]
  simp only [ofSector, Sector.next, BitVec.ofNat_add, BitVec.ofNat_mul, apply_ite (BitVec.ofNat 32)]
  rfl

theorem turn_ofSector (hdw : w.writeDw ≠ w.totalDw) (hgoes : turn (ofSector w) ≠ .stop .overflow)
    (flash stmflashBuf : Contents) :
    turn (ofSector w) = .cont (ofSector (w.next flash stmflashBuf)) ∧
      Small (w.next flash stmflashBuf) := by
  have hne : (ofSector w).writeDw ≠ (ofSector w).totalDw := by
    intro heq
    have hnat := congrArg BitVec.toNat heq
    change w.writeDw % 2 ^ 32 = w.totalDw % 2 ^ 32 at hnat
    rw [Nat.mod_eq_of_lt (h.writeDw_lt.trans (by decide)), Nat.mod_eq_of_lt h.totalDw_lt] at hnat
    exact hdw hnat
  rw [turn, if_neg hne] at hgoes ⊢
  rcases Int.lt_or_le (w.size - w.writeBytes + 8) (2 ^ 31) with hlt | hge
  · rw [h.next_ofSector hlt flash stmflashBuf]
    exact ⟨rfl, small_next hlt flash stmflashBuf⟩
  · rw [next_eq_none (by rwa [h.left_ofSector.1])] at hgoes
    exact absurd rfl hgoes

end Small

theorem small_firstSector {faddr size : ℕ} (hend : faddr + size + 8 < 2 ^ 32)
    (flash stmflashBuf : Contents) : Small (firstSector faddr size flash stmflashBuf) := by
  have hmin : (firstSector faddr size flash stmflashBuf).writeDw =
      min (firstSector faddr size flash stmflashBuf).totalDw
        (256 - (faddr / 8 * 8 - flashStartAdress) % stmSectorSize / 8) := (Nat.min_def ..).symm
  have htotal : (firstSector faddr size flash stmflashBuf).totalDw =
      ((faddr + size + 8) / 8 * 8 - faddr / 8 * 8) / 8 := rfl
  have hpos : (firstSector faddr size flash stmflashBuf).startPos =
      (faddr / 8 * 8 - flashStartAdress) % stmSectorSize / 8 * 8 + (faddr - faddr / 8 * 8) := rfl
  unfold stmSectorSize at hmin hpos
  constructor
  · omega
  · omega
  · omega

/-- In bounds, the sectors of a range that does not wrap are the turns of the
loop in 32 bits. -/
theorem reaches_ofSector {hal : Hal} {buf : ℤ → BitVec 8} {faddr size : ℕ}
    {flash stmflashBuf : Contents} {w : Sector} (hpos : (1 : ℤ) ≤ size) (hsize : size < 2 ^ 31)
    (hend : faddr + size + 8 < 2 ^ 32) (haccepted : Accepted (BitVec.ofNat 32 faddr) size)
    (hbounds : InBounds size (first (BitVec.ofNat 32 faddr) size))
    (h : Reaches (writeSector hal buf) (firstSector faddr size flash stmflashBuf) w) :
    Reaches turn (first (BitVec.ofNat 32 faddr) size) (ofSector w) := by
  have hfirst := first_eq_ofSector hpos hsize hend haccepted flash stmflashBuf
  have hsmall : Small (firstSector faddr size flash stmflashBuf) :=
    small_firstSector hend flash stmflashBuf
  have hreached : Small w ∧ Reaches turn (first (BitVec.ofNat 32 faddr) size) (ofSector w) := by
    induction h with
    | refl => exact ⟨hsmall, hfirst ▸ .refl _⟩
    | tail _ hcont ih =>
        obtain ⟨hu, hreach⟩ := ih
        obtain ⟨hdw, rfl⟩ := writeSector_cont hcont
        obtain ⟨hturn, hnext⟩ := hu.turn_ofSector hdw (hbounds _ hreach).2 _ _
        exact ⟨hnext, hreach.trans (.single hturn)⟩
  exact hreached.2

end SectorTurn

end RapidPatch.Hotpatch
