import RapidPatch.Hotpatch.Flash

/-!
What a write to the flash stores, and what it leaves alone.

A write that starts in the first double word of a sector is `Aligned` in every
turn of the loop: each sector is filled and programmed from its start on. Then
all bytes are stored. The turns that continue restore their sector; the last
one does so only if it programs the whole of it, which is the case if the
range ends in the last double word of a sector.

A write that starts further in programs the sector's first bytes in place of
the caller's, and never restores those before it.
-/

namespace RapidPatch.Hotpatch

open RapidPatch.Support

variable {hal : Hal} {buf : ℤ → BitVec 8} {faddr size j k x : ℕ}
  {flash flash' stmflashBuf : Contents} {w w' : Sector}

/-! ### The copy of a sector -/

namespace Sector

theorem filled_eq (buf : ℤ → BitVec 8) (w : Sector) :
    w.filled buf = overwrite
      (overwrite w.stmflashBuf 0 stmSectorSize fun j => w.flash (w.base + j))
      w.startPos w.writeBytes.toNat fun j => buf (w.buf + j) := copyBytes_eq ..

theorem filled_copied (hk : k < w.writeBytes.toNat) :
    w.filled buf (w.startPos + k) = buf (w.buf + k) := by
  rw [filled_eq, overwrite_add hk]

theorem filled_kept (hj : j < stmSectorSize)
    (hk : j < w.startPos ∨ w.startPos + w.writeBytes.toNat ≤ j) :
    w.filled buf j = w.flash (w.base + j) := by
  have hread : overwrite w.stmflashBuf 0 stmSectorSize (fun j => w.flash (w.base + j)) j =
      w.flash (w.base + j) := by
    have hadd := overwrite_add (m := w.stmflashBuf) (a := 0)
      (g := fun j => w.flash (w.base + j)) hj
    rwa [Nat.zero_add] at hadd
  rw [filled_eq]
  rcases hk with hlt | hle
  · rw [overwrite_of_lt hlt, hread]
  · rw [overwrite_of_le hle, hread]

/-- Behind `STMFLASH_BUF` the memory is what it was. -/
theorem filled_behind (hj : stmSectorSize ≤ j) (hk : w.startPos + w.writeBytes.toNat ≤ j) :
    w.filled buf j = w.stmflashBuf j := by
  rw [filled_eq, overwrite_of_le hk, overwrite_of_le (by rw [Nat.zero_add]; exact hj)]

/-! ### The flash after a turn -/

theorem flashed_programmed (buf : ℤ → BitVec 8) (hj : j < 8 * w.writeDw) :
    w.flashed buf (w.startAddr + j) = w.filled buf j := overwrite_add hj

/-- What is programmed and what is erased lies in the sector or behind it. -/
theorem flashed_of_lt (hbase : w.base ≤ w.startAddr) (hx : x < w.base) :
    w.flashed buf x = w.flash x := by
  rw [flashed, overwrite_of_lt (Nat.lt_of_lt_of_le hx hbase)]
  exact overwrite_of_lt hx

theorem flashed_of_le (hx : w.base + stmSectorSize ≤ x) (hdw : w.startAddr + 8 * w.writeDw ≤ x) :
    w.flashed buf x = w.flash x := by
  rw [flashed, overwrite_of_le hdw]
  exact overwrite_of_le hx

/-- The part of the sector that is not programmed is lost. -/
theorem flashed_lost (hbase : w.base ≤ x) (hlt : x < w.base + stmSectorSize)
    (hx : x < w.startAddr ∨ w.startAddr + 8 * w.writeDw ≤ x) : w.flashed buf x = blank := by
  have herased : earsePage w.flash w.secid x = blank := if_pos ⟨hbase, hlt⟩
  rcases hx with hlt | hle
  · rw [flashed, overwrite_of_lt hlt, herased]
  · rw [flashed, overwrite_of_le hle, herased]

/-! ### Sectors written from their start on -/

/-- What is left to write, with the padding before it. -/
def left (w : Sector) : ℕ := w.startPos + w.size.toNat

/-- The loop is about to write a sector from its start on. With nothing left but
one whole sector, the last turn writes a double word too many. -/
structure Aligned (w : Sector) : Prop where
  addr : w.startAddr = w.base
  pos : w.startPos < 8
  size : 0 ≤ w.size
  total : w.totalDw = (w.left + 8) / 8
  dw : w.writeDw = 256 ∧ 256 < w.totalDw ∨ w.writeDw = w.totalDw ∧ w.left ≤ stmSectorSize

theorem Aligned.whole (h : w.Aligned) (hdw : w.writeDw ≠ w.totalDw) :
    w.writeDw = 256 ∧ stmSectorSize ≤ w.left ∧ w.writeBytes = stmSectorSize - w.startPos := by
  have hpos := h.pos
  have hsize := h.size
  have htotal := h.total
  obtain ⟨hdw', hlt⟩ | ⟨heq, -⟩ := h.dw
  · unfold left stmSectorSize writeBytes at *
    refine ⟨hdw', by omega, ?_⟩
    simp only
    split <;> omega
  · exact absurd heq hdw

theorem Aligned.last (h : w.Aligned) (hdw : w.writeDw = w.totalDw) :
    w.left ≤ stmSectorSize ∧ w.writeBytes = w.size := by
  have hpos := h.pos
  have hsize := h.size
  have htotal := h.total
  obtain ⟨hdw', hlt⟩ | ⟨-, hle⟩ := h.dw
  · omega
  · refine ⟨hle, ?_⟩
    unfold left stmSectorSize writeBytes at *
    simp only
    split <;> omega

/-- What a turn copies is programmed. -/
theorem Aligned.copied_programmed (h : w.Aligned) :
    w.startPos + w.writeBytes.toNat ≤ 8 * w.writeDw := by
  have hsize := h.size
  have hpos := h.pos
  by_cases hdw : w.writeDw = w.totalDw
  · have htotal := h.total
    rw [(h.last hdw).2, hdw]
    unfold left at htotal
    omega
  · obtain ⟨h256, -, hbytes⟩ := h.whole hdw
    rw [hbytes, h256]
    unfold stmSectorSize
    omega

/-- What a turn copies fits in the copy. -/
theorem Aligned.copied_le (h : w.Aligned) :
    w.startPos + w.writeBytes.toNat ≤ stmSectorSize := by
  by_cases hdw : w.writeDw = w.totalDw
  · obtain ⟨hle, hbytes⟩ := h.last hdw
    rw [hbytes]
    exact hle
  · obtain ⟨-, -, hbytes⟩ := h.whole hdw
    have hpos := h.pos
    unfold stmSectorSize at *
    omega

theorem Aligned.next (h : w.Aligned) (hdw : w.writeDw ≠ w.totalDw) (flash stmflashBuf : Contents) :
    (w.next flash stmflashBuf).Aligned ∧
      (w.next flash stmflashBuf).startAddr = w.startAddr + stmSectorSize ∧
      (w.next flash stmflashBuf).left + stmSectorSize = w.left := by
  obtain ⟨h256, hle, hbytes⟩ := h.whole hdw
  have haddr := h.addr
  have hpos := h.pos
  have hsize := h.size
  unfold base left stmSectorSize flashStartAdress at *
  refine ⟨⟨?_, ?_, ?_, ?_, ?_⟩, ?_, ?_⟩
  all_goals
    simp only [Sector.next, base, left, stmSectorSize, flashStartAdress, hbytes, h256]
  · omega
  · omega
  · omega
  · omega
  · split <;> omega
  · omega

/-! ### What the turns preserve -/

/-- The caller's bytes up to `buf` are in the flash. -/
structure Stores (buf : ℤ → BitVec 8) (faddr size : ℕ) (w : Sector) : Prop where
  aligned : w.Aligned
  pos : (w.startAddr + w.startPos : ℤ) = faddr + w.buf
  start : 0 ≤ w.buf ∧ (w.buf = 0 ∨ w.startPos = 0)
  rest : w.buf + w.size = size
  stored : ∀ i : ℕ, (i : ℤ) < w.buf → w.flash (faddr + i) = buf i

theorem Stores.flashed (h : w.Stores buf faddr size) {i : ℕ}
    (hi : (i : ℤ) < w.buf + w.writeBytes) : w.flashed buf (faddr + i) = buf i := by
  have haddr := h.aligned.addr
  have hpos := h.pos
  obtain ⟨hstart, hzero⟩ := h.start
  rcases lt_or_ge (i : ℤ) w.buf with hlt | hge
  · rw [flashed_of_lt (le_of_eq haddr.symm) (by omega)]
    exact h.stored i hlt
  · obtain ⟨k, hk⟩ := Int.eq_ofNat_of_zero_le (Int.sub_nonneg_of_le hge)
    have hprog := h.aligned.copied_programmed
    have hx : faddr + i = w.startAddr + (w.startPos + k) := by omega
    rw [hx, flashed_programmed buf (by omega), filled_copied (by omega)]
    congr 1
    omega

theorem Stores.next (h : w.Stores buf faddr size) (hdw : w.writeDw ≠ w.totalDw)
    (stmflashBuf : Contents) : (w.next (w.flashed buf) stmflashBuf).Stores buf faddr size := by
  obtain ⟨h256, hle, hbytes⟩ := h.aligned.whole hdw
  have hpos := h.pos
  have hstart := h.start.1
  have hlt := h.aligned.pos
  have hrest := h.rest
  obtain ⟨haligned, haddr, -⟩ := h.aligned.next hdw (w.flashed buf) stmflashBuf
  refine ⟨haligned, ?_, ?_, ?_, ?_⟩
  · rw [haddr]
    simp only [Sector.next, hbytes]
    omega
  · refine ⟨?_, .inr rfl⟩
    simp only [Sector.next, hbytes]
    unfold stmSectorSize
    omega
  · simp only [Sector.next]
    omega
  · intro i hi
    exact h.flashed hi

/-- What is not to be written is what it was before the call. -/
structure Keeps (flash : Contents) (faddr size : ℕ) (w : Sector) : Prop where
  aligned : w.Aligned
  lower : faddr ≤ w.startAddr + w.startPos
  upper : w.startAddr + w.left = faddr + size
  same : ∀ x, x < faddr ∨ faddr + size ≤ x → w.flash x = flash x

/-- A sector that is programmed as a whole is restored. -/
theorem Keeps.flashed (h : w.Keeps flash faddr size) (h256 : w.writeDw = 256)
    (hx : x < faddr ∨ faddr + size ≤ x) : w.flashed buf x = flash x := by
  have haddr := h.aligned.addr
  have hlower := h.lower
  have hupper := h.upper
  have hbytes : w.startPos + w.writeBytes.toNat ≤ w.left := by
    unfold left
    have hsize := h.aligned.size
    by_cases hdw : w.writeDw = w.totalDw
    · rw [(h.aligned.last hdw).2]
    · obtain ⟨-, hle, hbytes⟩ := h.aligned.whole hdw
      have hpos := h.aligned.pos
      unfold left stmSectorSize at hle
      unfold stmSectorSize at hbytes
      omega
  rw [← h.same x hx]
  rcases Nat.lt_or_ge x w.base with hlt | hge
  · exact flashed_of_lt (le_of_eq haddr.symm) hlt
  · obtain ⟨j, rfl⟩ := Nat.exists_eq_add_of_le hge
    rcases Nat.lt_or_ge j stmSectorSize with hj | hj
    · have hprog : j < 8 * w.writeDw := by
        rw [h256]
        exact hj
      rw [← haddr, flashed_programmed buf hprog, filled_kept hj (by omega), haddr]
    · refine flashed_of_le (Nat.add_le_add_left hj _) ?_
      rw [haddr, h256]
      exact Nat.add_le_add_left hj _

theorem Keeps.next (h : w.Keeps flash faddr size) (hdw : w.writeDw ≠ w.totalDw)
    (stmflashBuf : Contents) : (w.next (w.flashed buf) stmflashBuf).Keeps flash faddr size := by
  obtain ⟨h256, hle, -⟩ := h.aligned.whole hdw
  have hupper := h.upper
  have hlower := h.lower
  have hpos := h.aligned.pos
  obtain ⟨haligned, haddr, hleft⟩ := h.aligned.next hdw (w.flashed buf) stmflashBuf
  refine ⟨haligned, ?_, ?_, fun x hx => h.flashed h256 hx⟩
  · rw [haddr]
    unfold stmSectorSize
    omega
  · omega

/-- What is programmed behind the sector is erased. -/
structure BlankAhead (stop : ℕ) (w : Sector) : Prop where
  aligned : w.Aligned
  upper : w.startAddr + w.left + 8 ≤ stop
  blank : ∀ x, w.base + stmSectorSize ≤ x → x < stop → w.flash x = blank

theorem BlankAhead.succeeds {stop : ℕ} (h : w.BlankAhead stop) {r : Contents × ℤ}
    (hstop : writeSector hal buf w = .stop r) : r.2 = 0 := by
  have haddr := h.aligned.addr
  refine writeSector_blank (le_of_eq haddr.symm) ?_ hstop
  intro x hx hx'
  refine h.blank x hx ?_
  have hupper := h.upper
  by_cases hdw : w.writeDw = w.totalDw
  · have htotal := h.aligned.total
    omega
  · obtain ⟨h256, hle, -⟩ := h.aligned.whole hdw
    unfold stmSectorSize at hx
    omega

theorem BlankAhead.next {stop : ℕ} (h : w.BlankAhead stop) (hdw : w.writeDw ≠ w.totalDw)
    (stmflashBuf : Contents) : (w.next (w.flashed buf) stmflashBuf).BlankAhead stop := by
  obtain ⟨h256, hle, -⟩ := h.aligned.whole hdw
  have hold := h.aligned.addr
  have hupper := h.upper
  obtain ⟨haligned, haddr, hleft⟩ := h.aligned.next hdw (w.flashed buf) stmflashBuf
  have hbase := haligned.addr
  refine ⟨haligned, by omega, ?_⟩
  intro x hx hx'
  have hkept : w.flashed buf x = w.flash x := by
    refine flashed_of_le (by omega) ?_
    unfold stmSectorSize at *
    omega
  exact hkept.trans (h.blank x (by omega) hx')

/-- There are zeros behind `STMFLASH_BUF`. -/
structure ZerosBehind (stop : ℕ) (w : Sector) : Prop where
  aligned : w.Aligned
  upper : w.startAddr + w.left = stop
  zeros : ∀ j, stmSectorSize ≤ j → w.stmflashBuf j = 0

theorem ZerosBehind.filled {stop : ℕ} (h : w.ZerosBehind stop) (hj : stmSectorSize ≤ j) :
    w.filled buf j = 0 :=
  (filled_behind hj (Nat.le_trans h.aligned.copied_le hj)).trans (h.zeros j hj)

theorem ZerosBehind.next {stop : ℕ} (h : w.ZerosBehind stop) (hdw : w.writeDw ≠ w.totalDw) :
    (w.next (w.flashed buf) (w.filled buf)).ZerosBehind stop := by
  obtain ⟨haligned, haddr, hleft⟩ := h.aligned.next hdw (w.flashed buf) (w.filled buf)
  have hupper := h.upper
  exact ⟨haligned, by omega, fun j hj => h.filled hj⟩

/-- A last turn that does not end with its sector erases a byte behind the range or
programs one behind the sector. -/
theorem ZerosBehind.loses {stop : ℕ} (h : w.ZerosBehind stop) (buf : ℤ → BitVec 8)
    (hdw : w.writeDw = w.totalDw) (hstop : stop % stmSectorSize < 2040) :
    w.flashed buf stop = 0 ∨ ∃ x, stop + 8 ≤ x ∧ w.flashed buf x = blank := by
  have haddr := h.aligned.addr
  have htotal := h.aligned.total
  have hupper := h.upper
  obtain ⟨hle, -⟩ := h.aligned.last hdw
  have hbase : w.base % stmSectorSize = 0 := by
    unfold base flashStartAdress stmSectorSize
    omega
  rcases Nat.lt_or_ge w.left stmSectorSize with hlt | hge
  · right
    refine ⟨w.base + 2047, ?_, flashed_lost (Nat.le_add_right _ _) ?_ (.inr ?_)⟩
    · unfold stmSectorSize at *
      omega
    · exact Nat.add_lt_add_left (by decide) _
    · unfold stmSectorSize at *
      omega
  · -- nothing but this sector is left, and `write_dw` is one too many
    left
    have hwhole : w.left = stmSectorSize := Nat.le_antisymm hle hge
    have hprog : stmSectorSize < 8 * w.writeDw := by
      unfold stmSectorSize at *
      omega
    rw [← hupper, hwhole, flashed_programmed buf hprog]
    exact h.filled le_rfl

/-! ### Runs -/

/-- What every turn of an aligned write preserves holds before its last turn. -/
theorem run_of_next {P : Sector → Prop}
    (hnext : ∀ w, P w → w.writeDw ≠ w.totalDw → P (w.next (w.flashed buf) (w.filled buf)))
    {n : ℕ} (hw : P w) (h : run (writeSector hal buf) n w = .stop (flash', 0)) :
    ∃ w', P w' ∧ w'.writeDw = w'.totalDw ∧ flash' = w'.flashed buf := by
  obtain ⟨w', hreach, hstop⟩ := reaches_of_run_stop h
  obtain ⟨hdw, hflash⟩ := writeSector_stop hstop
  refine ⟨w', hreach.invariant ?_ hw, hdw, hflash⟩
  intro u v hu hv
  obtain ⟨hne, rfl⟩ := writeSector_cont hv
  exact hnext u hu hne

theorem Aligned.returns (h : w.Aligned) (hal : Hal) (buf : ℤ → BitVec 8) :
    ∃ n r, run (writeSector hal buf) n w = .stop r := by
  obtain ⟨r, hr⟩ := run_stops_of_variant left
    (fun u v (hu : u.Aligned) (hv : writeSector hal buf u = .cont v) => by
      obtain ⟨hne, rfl⟩ := writeSector_cont hv
      obtain ⟨haligned, -, hleft⟩ := hu.next hne (u.flashed buf) (u.filled buf)
      refine ⟨haligned, ?_⟩
      unfold stmSectorSize at hleft
      omega) h
  exact ⟨_, r, hr⟩

/-- With an erased flash ahead it succeeds. -/
theorem BlankAhead.returns {stop : ℕ} (h : w.BlankAhead stop) (hal : Hal)
    (buf : ℤ → BitVec 8) :
    ∃ n flash', run (writeSector hal buf) n w = .stop (flash', 0) := by
  obtain ⟨n, ⟨flash', ret⟩, hrun⟩ := h.aligned.returns hal buf
  obtain ⟨w', hreach, hstop⟩ := reaches_of_run_stop hrun
  have hw' : w'.BlankAhead stop := hreach.invariant (fun u v hu hv => by
    obtain ⟨hne, rfl⟩ := writeSector_cont hv
    exact hu.next hne _) h
  obtain rfl : ret = 0 := hw'.succeeds hstop
  exact ⟨n, flash', hrun⟩

end Sector

/-! ### The first sector -/

namespace Sector

structure First (faddr size : ℕ) (w : Sector) : Prop where
  addr : w.startAddr = faddr / 8 * 8
  base : w.base = faddr / stmSectorSize * stmSectorSize
  pos : w.startPos = faddr % stmSectorSize
  rest : w.size = size
  buf : w.buf = 0
  total : w.totalDw = (faddr % 8 + size + 8) / 8
  /-- The sector is programmed up to its end, or as far as the range goes. -/
  dw : w.writeDw = min w.totalDw (256 - faddr % stmSectorSize / 8)

theorem firstSector_first (hstart : flashStartAdress ≤ faddr) (size : ℕ)
    (flash stmflashBuf : Contents) :
    (firstSector faddr size flash stmflashBuf).First faddr size := by
  unfold flashStartAdress at hstart
  refine ⟨rfl, ?_, ?_, rfl, rfl, ?_, ?_⟩
  · simp only [firstSector, base, flashStartAdress, stmSectorSize]
    omega
  · simp only [firstSector, flashStartAdress, stmSectorSize]
    omega
  · simp only [firstSector]
    omega
  · refine (min_def ..).symm.trans (congrArg (min _) ?_)
    simp only [flashStartAdress, stmSectorSize]
    omega

theorem First.aligned (h : w.First faddr size) (hfirst : faddr % stmSectorSize < 8) :
    w.Aligned := by
  obtain ⟨haddr, hbase, hpos, hsize, -, htotal, hdw⟩ := h
  have hleft : w.left = faddr % stmSectorSize + size := by
    rw [left, hpos, hsize, Int.toNat_natCast]
  unfold stmSectorSize at *
  refine ⟨?_, ?_, ?_, ?_, ?_⟩
  · omega
  · omega
  · omega
  · omega
  · unfold stmSectorSize
    omega

/-- After the first sector every write is aligned. -/
theorem First.next (h : w.First faddr size) (hdw : w.writeDw ≠ w.totalDw)
    (flash stmflashBuf : Contents) :
    (w.next flash stmflashBuf).Aligned ∧
      (w.next flash stmflashBuf).startAddr = w.base + stmSectorSize := by
  obtain ⟨haddr, hbase, hpos, hsz, -, htotal, hmin⟩ := h
  -- the sector is written to its end, which may be less than nothing
  have hbytes : w.writeBytes = w.writeDw * 8 - w.startPos := by
    unfold stmSectorSize writeBytes at *
    simp only
    split <;> omega
  have hnext : (w.next flash stmflashBuf).base = w.base + stmSectorSize := by
    simp only [Sector.base, Sector.next, Nat.succ_mul]
    omega
  have hstart : (w.next flash stmflashBuf).startAddr = w.base + stmSectorSize := by
    simp only [Sector.next]
    unfold stmSectorSize at *
    omega
  refine ⟨⟨hstart.trans hnext.symm, Nat.succ_pos _, ?_, ?_, ?_⟩, hstart⟩
  all_goals
    simp only [Sector.next, left, hbytes]
    unfold stmSectorSize at *
  · omega
  · omega
  · split <;> omega

/-! ### Writes that start further in -/

/-- Every byte before an aligned sector keeps its value. -/
theorem Aligned.before (h : w.Aligned) (hx : x < w.base) {n : ℕ}
    (hrun : run (writeSector hal buf) n w = .stop (flash', 0)) : flash' x = w.flash x := by
  have hturn (u : Sector) (hu : u.Aligned) (hle : w.base ≤ u.base) :
      u.flashed buf x = u.flash x :=
    flashed_of_lt (le_of_eq hu.addr.symm) (Nat.lt_of_lt_of_le hx hle)
  have hnext (u : Sector) (hu : u.Aligned ∧ w.base ≤ u.base ∧ u.flash x = w.flash x)
      (hdw : u.writeDw ≠ u.totalDw) :
      (u.next (u.flashed buf) (u.filled buf)).Aligned ∧
        w.base ≤ (u.next (u.flashed buf) (u.filled buf)).base ∧
        (u.next (u.flashed buf) (u.filled buf)).flash x = w.flash x := by
    obtain ⟨haligned, hle, hsame⟩ := hu
    obtain ⟨hnext, haddr, -⟩ := haligned.next hdw (u.flashed buf) (u.filled buf)
    have hbase := hnext.addr.symm.trans haddr
    have hold := haligned.addr
    exact ⟨hnext, by omega, (hturn u haligned hle).trans hsame⟩
  obtain ⟨u, ⟨haligned, hle, hsame⟩, -, rfl⟩ := run_of_next hnext ⟨h, le_rfl, rfl⟩ hrun
  exact (hturn u haligned hle).trans hsame

/-- On a flash that is erased behind its start, a write succeeds, and what its
first turn does in the first sector is final. -/
theorem First.returns (h : w.First faddr size) (hal : Hal) (buf : ℤ → BitVec 8)
    (hblank : ∀ x, w.base + stmSectorSize ≤ x → w.flash x = blank) :
    ∃ n flash', run (writeSector hal buf) n w = .stop (flash', 0) ∧
      ∀ x, x < w.base + stmSectorSize → flash' x = w.flashed buf x := by
  have haddr := h.addr
  have hbase := h.base
  have hmin := h.dw
  have hle : w.base ≤ w.startAddr := by
    unfold stmSectorSize at hbase
    omega
  have hend : w.startAddr + 8 * w.writeDw ≤ w.base + stmSectorSize := by
    unfold stmSectorSize at *
    omega
  cases hstep : writeSector hal buf w with
  | stop r =>
      obtain ⟨flash', ret⟩ := r
      obtain rfl : ret = 0 := writeSector_blank hle (fun x hx _ => hblank x hx) hstep
      obtain ⟨-, rfl⟩ := writeSector_stop hstep
      exact ⟨1, _, run_succ_stop hstep, fun x _ => rfl⟩
  | cont w' =>
      obtain ⟨hdw, rfl⟩ := writeSector_cont hstep
      obtain ⟨haligned, hstart⟩ := h.next hdw (w.flashed buf) (w.filled buf)
      have hnext := haligned.addr.symm.trans hstart
      have hahead : (w.next (w.flashed buf) (w.filled buf)).BlankAhead
          (w.base + stmSectorSize + (w.next (w.flashed buf) (w.filled buf)).left + 8) := by
        refine ⟨haligned, by omega, ?_⟩
        intro x hx _
        have hx' : w.base + stmSectorSize ≤ x := by omega
        exact (flashed_of_le hx' (Nat.le_trans hend hx')).trans (hblank x hx')
      obtain ⟨n, flash', hrun⟩ := hahead.returns hal buf
      refine ⟨n + 1, flash', (run_succ_cont hstep).trans hrun, ?_⟩
      intro x hx
      exact haligned.before (by rw [hnext]; exact hx) hrun

/-- The byte at `faddr` takes its value from the start of the sector, before
the caller's bytes in the copy; and the sector before `faddr` is erased. -/
theorem First.flashed_misaligned (h : w.First faddr size) (buf : ℤ → BitVec 8) (hsize : 1 ≤ size)
    (hfirst : 8 ≤ faddr % stmSectorSize) :
    w.flashed buf faddr = w.flash (w.base + faddr % 8) ∧ w.flashed buf w.base = blank := by
  obtain ⟨haddr, hbase, hpos, -, -, htotal, hmin⟩ := h
  have hx : w.startAddr + faddr % 8 = faddr := by omega
  have hdw : faddr % 8 < 8 * w.writeDw := by
    unfold stmSectorSize at hmin
    omega
  have hkept : w.filled buf (faddr % 8) = w.flash (w.base + faddr % 8) := by
    unfold stmSectorSize at *
    exact filled_kept (by unfold stmSectorSize; omega) (.inl (by omega))
  have hbefore : w.base < w.startAddr := by
    unfold stmSectorSize at *
    omega
  refine ⟨?_, flashed_lost le_rfl (Nat.lt_add_of_pos_right (Nat.succ_pos _)) (.inl hbefore)⟩
  have hprog := flashed_programmed buf hdw
  rwa [hx, hkept] at hprog

end Sector

/-! ### Calls -/

/-- A call is refused if its range ends at the end of the flash. -/
theorem flashPortWrite_eq (hstart : flashStartAdress ≤ faddr)
    (hend : faddr + size ≤ flashEndAddress) {n : ℕ} :
    flashPortWrite hal buf faddr size flash stmflashBuf n =
      if faddr + size = flashEndAddress then .stop (flash, -1)
      else run (writeSector hal buf) n (firstSector faddr size flash stmflashBuf) := by
  unfold flashStartAdress flashEndAddress at *
  have hiff : (faddr / 8 * 8 < 0x08000000 ∨
      (faddr + size + 8) / 8 * 8 > 0x08000000 + 512 * 1024) ↔
      faddr + size = 0x08000000 + 512 * 1024 := by omega
  simp only [flashPortWrite, flashStartAdress, flashEndAddress, hiff]

theorem flashPortWrite_done (hstart : flashStartAdress ≤ faddr)
    (hend : faddr + size ≤ flashEndAddress) {n : ℕ}
    (h : flashPortWrite hal buf faddr size flash stmflashBuf n = .stop (flash', 0)) :
    faddr + size ≠ flashEndAddress ∧
      run (writeSector hal buf) n (firstSector faddr size flash stmflashBuf) =
        .stop (flash', 0) := by
  rw [flashPortWrite_eq hstart hend] at h
  split at h
  · cases h
  · rename_i hne
    exact ⟨hne, h⟩

theorem flashPortWrite_returns (hal : Hal) (buf : ℤ → BitVec 8)
    (hstart : flashStartAdress ≤ faddr)
    (hend : faddr + size ≤ flashEndAddress) (flash stmflashBuf : Contents) :
    ∃ n r, flashPortWrite hal buf faddr size flash stmflashBuf n = .stop r := by
  simp only [flashPortWrite_eq hstart hend]
  split
  · exact ⟨0, _, rfl⟩
  · cases hstep : writeSector hal buf (firstSector faddr size flash stmflashBuf) with
    | stop r => exact ⟨1, r, run_succ_stop hstep⟩
    | cont w =>
        obtain ⟨hdw, rfl⟩ := writeSector_cont hstep
        have hfirst := Sector.firstSector_first hstart size flash stmflashBuf
        obtain ⟨haligned, -⟩ := hfirst.next hdw _ _
        obtain ⟨n, r, hrun⟩ := haligned.returns hal buf
        exact ⟨n + 1, r, (run_succ_cont hstep).trans hrun⟩

def blankFrom (a : ℕ) : Contents := fun x => if x < a then 0 else blank

def blankUpTo (a : ℕ) : Contents := fun x => if x < a then blank else 0

/-- Further in, the byte at `faddr` and the first byte of its sector are lost. -/
theorem misaligned_loses (hal : Hal) (hstart : flashStartAdress ≤ faddr) (hsize : 1 ≤ size)
    (hend : faddr + size < flashEndAddress) (hfirst : 8 ≤ faddr % stmSectorSize)
    (stmflashBuf : Contents) :
    ∃ n flash', flashPortWrite hal (fun _ => blank) faddr size (blankFrom (faddr / 8 * 8))
        stmflashBuf n = .stop (flash', 0) ∧
      flash' faddr = 0 ∧ flash' (faddr / stmSectorSize * stmSectorSize) = blank := by
  have h := Sector.firstSector_first hstart size (blankFrom (faddr / 8 * 8)) stmflashBuf
  obtain ⟨n, flash', hrun, hfinal⟩ := h.returns hal (fun _ => blank) (by
    intro x hx
    refine if_neg ?_
    rw [h.base] at hx
    unfold stmSectorSize at hx
    omega)
  obtain ⟨htaken, hlost⟩ := h.flashed_misaligned (fun _ => blank) hsize hfirst
  have hbase := h.base
  refine ⟨n, flash', ?_, ?_, ?_⟩
  · rw [flashPortWrite_eq hstart (le_of_lt hend), if_neg (Nat.ne_of_lt hend)]
    exact hrun
  · rw [hfinal faddr (by unfold stmSectorSize at *; omega), htaken]
    refine if_pos ?_
    unfold stmSectorSize at *
    omega
  · rw [← hbase, hfinal _ (Nat.lt_add_of_pos_right (Nat.succ_pos _)), hlost]

/-- A write whose last sector is not programmed as a whole loses a byte behind
the range. -/
theorem unfilled_loses (hal : Hal) (hstart : flashStartAdress ≤ faddr)
    (hend : faddr + size < flashEndAddress) (hfirst : faddr % stmSectorSize < 8)
    (hlast : (faddr + size) % stmSectorSize < 2040) (buf : ℤ → BitVec 8) :
    ∃ n flash' x,
      flashPortWrite hal buf faddr size (blankUpTo (faddr + size + 8)) (fun _ => 0) n =
        .stop (flash', 0) ∧
      faddr + size ≤ x ∧ flash' x ≠ blankUpTo (faddr + size + 8) x := by
  -- it is erased where the last turn may program behind its sector
  let flash := blankUpTo (faddr + size + 8)
  have h := Sector.firstSector_first hstart size flash fun _ => 0
  have haligned := h.aligned hfirst
  have hupper : (firstSector faddr size flash fun _ => 0).startAddr +
      (firstSector faddr size flash fun _ => 0).left = faddr + size := by
    have hbase := haligned.addr.trans h.base
    rw [hbase, Sector.left, h.pos, h.rest, Int.toNat_natCast]
    unfold stmSectorSize
    omega
  have hahead : (firstSector faddr size flash fun _ => 0).BlankAhead (faddr + size + 8) :=
    ⟨haligned, by omega, fun x _ hx => if_pos hx⟩
  obtain ⟨n, flash', hrun⟩ := hahead.returns hal buf
  have hzeros : (firstSector faddr size flash fun _ => 0).ZerosBehind (faddr + size) :=
    ⟨haligned, hupper, fun _ _ => rfl⟩
  have hcall : flashPortWrite hal buf faddr size flash (fun _ => 0) n = .stop (flash', 0) := by
    rw [flashPortWrite_eq hstart (le_of_lt hend), if_neg (Nat.ne_of_lt hend)]
    exact hrun
  obtain ⟨w, hw, hdw, rfl⟩ := Sector.run_of_next (fun _ hu => hu.next) hzeros hrun
  rcases hw.loses buf hdw hlast with hzero | ⟨x, hx, hblank⟩
  · refine ⟨n, _, faddr + size, hcall, le_rfl, ?_⟩
    have hold : blankUpTo (faddr + size + 8) (faddr + size) = blank :=
      if_pos (Nat.lt_add_of_pos_right (Nat.succ_pos _))
    rw [hzero, hold]
    decide
  · refine ⟨n, _, x, hcall, by omega, ?_⟩
    have hold : blankUpTo (faddr + size + 8) x = 0 := if_neg (Nat.not_lt_of_le hx)
    rw [hblank, hold]
    decide

/-- The flash of the board: a double word that is not erased takes only zeros. -/
def boardHal : Hal where
  program old v := if old = (fun _ => blank) ∨ v = (fun _ => 0) then v else old
  program_blank _ := if_pos (.inl rfl)

/-- The caller's bytes are in the flash after every call that succeeds exactly if the
range starts in the first double word of a sector, or no call succeeds. -/
theorem flashPortWrite_stores_iff (hal : Hal) {faddr size : ℕ}
    (hstart : flashStartAdress ≤ faddr) (hsize : 1 ≤ size)
    (hend : faddr + size ≤ flashEndAddress) :
    (∀ (buf : ℤ → BitVec 8) (flash stmflashBuf : Contents) n flash',
        flashPortWrite hal buf faddr size flash stmflashBuf n = .stop (flash', 0) →
          ∀ i < size, flash' (faddr + i) = buf i) ↔
      faddr % stmSectorSize < 8 ∨ faddr + size = flashEndAddress := by
  constructor
  · intro h
    by_contra hnot
    obtain ⟨hfirst, hlast⟩ := not_or.mp hnot
    obtain ⟨n, flash', hrun, hlost, -⟩ := misaligned_loses hal hstart hsize
      (Nat.lt_of_le_of_ne hend hlast) (Nat.not_lt.mp hfirst) fun _ => 0
    have hbyte := h _ _ _ _ _ hrun 0 hsize
    rw [Nat.add_zero, hlost] at hbyte
    exact absurd hbyte (by decide)
  · intro h buf flash stmflashBuf n flash' hrun i hi
    obtain ⟨hne, hrun⟩ := flashPortWrite_done hstart hend hrun
    have hlow := h.resolve_right hne
    have hfirst := Sector.firstSector_first hstart size flash stmflashBuf
    have haligned := hfirst.aligned hlow
    have hstores : (firstSector faddr size flash stmflashBuf).Stores buf faddr size := by
      obtain ⟨haddr, -, hpos, hrest, hbuf, -, -⟩ := hfirst
      refine ⟨haligned, ?_, ⟨by rw [hbuf], .inl hbuf⟩, by rw [hbuf, hrest, Int.zero_add], ?_⟩
      · unfold stmSectorSize at *
        omega
      · intro i hi
        omega
    obtain ⟨w, hw, hdw, rfl⟩ := Sector.run_of_next (fun _ hu hd => hu.next hd _) hstores hrun
    refine hw.flashed ?_
    rw [(hw.aligned.last hdw).2, hw.rest]
    exact Int.ofNat_lt.mpr hi

theorem block_stored :
    flashStartAdress ≤ 0x08030000 ∧ 0x08030000 + 2048 ≤ flashEndAddress ∧
      ∀ (buf : ℤ → BitVec 8) (flash stmflashBuf : Contents) n flash',
        flashPortWrite boardHal buf 0x08030000 2048 flash stmflashBuf n = .stop (flash', 0) →
          ∀ i < 2048, flash' (0x08030000 + i) = buf i :=
  ⟨by decide, by decide,
    (flashPortWrite_stores_iff boardHal (by decide) (by decide) (by decide)).mpr
      (.inl (by decide))⟩

/-- An erased byte, written behind two double words of zeros, is read back as
zero. -/
theorem byte_not_stored :
    flashStartAdress ≤ 0x08000010 ∧ 0x08000010 + 1 ≤ flashEndAddress ∧
      ∃ n flash', flashPortWrite boardHal (fun _ => blank) 0x08000010 1 (blankFrom 0x08000010)
          (fun _ => 0) n = .stop (flash', 0) ∧
        flash' 0x08000010 ≠ blank := by
  obtain ⟨n, flash', hrun, hlost, -⟩ := misaligned_loses boardHal
    (by decide : flashStartAdress ≤ 0x08000010) le_rfl (by decide) (by decide) fun _ => 0
  refine ⟨by decide, by decide, n, flash', hrun, ?_⟩
  rw [hlost]
  decide

/-- Nothing else is changed by any call that succeeds exactly if moreover the range
ends in the last double word of a sector, or no call succeeds. -/
theorem flashPortWrite_keeps_iff (hal : Hal) {faddr size : ℕ}
    (hstart : flashStartAdress ≤ faddr) (hsize : 1 ≤ size)
    (hend : faddr + size ≤ flashEndAddress) :
    (∀ (buf : ℤ → BitVec 8) (flash stmflashBuf : Contents) n flash',
        flashPortWrite hal buf faddr size flash stmflashBuf n = .stop (flash', 0) →
          ∀ x, x < faddr ∨ faddr + size ≤ x → flash' x = flash x) ↔
      faddr % stmSectorSize < 8 ∧ 2040 ≤ (faddr + size) % stmSectorSize ∨
        faddr + size = flashEndAddress := by
  constructor
  · intro h
    by_contra hnot
    obtain ⟨hwhole, hlast⟩ := not_or.mp hnot
    have hlt : faddr + size < flashEndAddress := Nat.lt_of_le_of_ne hend hlast
    rcases Nat.lt_or_ge (faddr % stmSectorSize) 8 with hfirst | hfirst
    · obtain ⟨n, flash', x, hrun, hx, hne⟩ := unfilled_loses hal hstart hlt hfirst
        (Nat.lt_of_not_le fun hle => hwhole ⟨hfirst, hle⟩) fun _ => 0
      exact hne (h _ _ _ _ _ hrun x (.inr hx))
    · obtain ⟨n, flash', hrun, -, hlost⟩ := misaligned_loses hal hstart hsize hlt hfirst
        fun _ => 0
      have hx : faddr / stmSectorSize * stmSectorSize < faddr / 8 * 8 := by
        unfold stmSectorSize at *
        omega
      have hbyte := h _ _ _ _ _ hrun (faddr / stmSectorSize * stmSectorSize) (.inl (by omega))
      have hold : blankFrom (faddr / 8 * 8) (faddr / stmSectorSize * stmSectorSize) = 0 := if_pos hx
      rw [hlost, hold] at hbyte
      exact absurd hbyte (by decide)
  · intro h buf flash stmflashBuf n flash' hrun x hx
    obtain ⟨hne, hrun⟩ := flashPortWrite_done hstart hend hrun
    obtain ⟨hlow, hlast⟩ := h.resolve_right hne
    have hfirst := Sector.firstSector_first hstart size flash stmflashBuf
    have haligned := hfirst.aligned hlow
    have hkeeps : (firstSector faddr size flash stmflashBuf).Keeps flash faddr size := by
      have hbase := haligned.addr.trans hfirst.base
      refine ⟨haligned, ?_, ?_, fun _ _ => rfl⟩
      · rw [hbase, hfirst.pos]
        unfold stmSectorSize
        omega
      · rw [hbase, Sector.left, hfirst.pos, hfirst.rest, Int.toNat_natCast]
        unfold stmSectorSize
        omega
    obtain ⟨w, hw, hdw, rfl⟩ := Sector.run_of_next (fun _ hu hd => hu.next hd _) hkeeps hrun
    refine hw.flashed ?_ hx
    -- the last turn programs a whole sector
    have haddr := hw.aligned.addr
    have htotal := hw.aligned.total
    have hupper := hw.upper
    obtain ⟨hle, -⟩ := hw.aligned.last hdw
    unfold Sector.base flashStartAdress stmSectorSize at *
    omega

theorem sector_kept :
    flashStartAdress ≤ 0x08030000 ∧ 0x08030000 + 2047 ≤ flashEndAddress ∧
      ∀ (buf : ℤ → BitVec 8) (flash stmflashBuf : Contents) n flash',
        flashPortWrite boardHal buf 0x08030000 2047 flash stmflashBuf n = .stop (flash', 0) →
          ∀ x, x < 0x08030000 ∨ 0x08030000 + 2047 ≤ x → flash' x = flash x :=
  ⟨by decide, by decide,
    (flashPortWrite_keeps_iff boardHal (by decide) (by decide) (by decide)).mpr
      (.inl (by decide))⟩

/-- A write of a whole sector, as in `test_flash_speed`, erases bytes of the next
one. -/
theorem block_not_kept :
    flashStartAdress ≤ 0x08030000 ∧ 0x08030000 + 2048 ≤ flashEndAddress ∧
      ∃ n flash' x, flashPortWrite boardHal (fun _ => 0) 0x08030000 2048 (blankUpTo 0x08030808)
          (fun _ => 0) n = .stop (flash', 0) ∧
        0x08030000 + 2048 ≤ x ∧ flash' x ≠ blankUpTo 0x08030808 x :=
  ⟨by decide, by decide, unfilled_loses boardHal (by decide) (by decide) (by decide) (by decide) _⟩

end RapidPatch.Hotpatch
