import Mathlib.Data.Fintype.Pi
import RapidPatch.Support.Bytes
import RapidPatch.Support.Machine

/-!
Writing to the flash.

The flash is erased page by page and programmed one double word at a time.
`flash_port_write` goes through the sectors of its range: it copies a sector
to `STMFLASH_BUF`, puts the caller's bytes into the copy, erases the sector
and programs the copy back, `write_dw` double words of it.

What is programmed at `start_addr` is the copy from its first double word on,
which belongs at the start of the sector; and what lies in the sector beside
those double words is erased for good. `Sector.flashed` says what a turn of the
loop leaves behind if it succeeds (`writeSector_cases`), for any flash and any
way of programming.

Addresses and lengths are numbers, since nothing wraps for a range inside the
flash. The bytes are those of the memory around the buffer: the loop may
step back to before its start.
-/

namespace RapidPatch.Hotpatch

open RapidPatch.Support

abbrev Contents := ℕ → BitVec 8

abbrev Dword := Fin 8 → BitVec 8

def blank : BitVec 8 := 0xff

def dword (m : Contents) (a : ℕ) : Dword := fun i => m (a + i)

/-- `HAL_FLASH_Program`: what the cells of a double word hold afterwards, given
what they held and what is to be programmed. Erased cells take it. -/
structure Hal where
  program : Dword → Dword → Dword
  program_blank : ∀ v, program (fun _ => blank) v = v

/-! ### The functions of the source -/

def flashStartAdress : ℕ := 0x08000000

/-- `FLASH_END_ADDRESS`. The chip has more flash behind it; the end is only
what a range is checked against. -/
def flashEndAddress : ℕ := 0x08000000 + 512 * 1024

def stmSectorSize : ℕ := 2048

/-- `flash_read32`: `size` words from `addr` on, to the start of `buf`. -/
def flashRead32 (flash : Contents) (addr : ℕ) (buf : Contents) (size : ℕ) : Contents :=
  overwrite buf 0 (4 * size) fun j => flash (addr + j)

/-- `earse_page`, on a page that can be erased. -/
def earsePage (flash : Contents) (secid : ℕ) : Contents :=
  overwrite flash (secid * stmSectorSize + flashStartAdress) stmSectorSize fun _ => blank

/-- The loop of `write_directly`, from turn `i` on, with its result. -/
def writeDirectly (hal : Hal) (buf : Contents) : ℕ → ℕ → ℕ → Contents → Contents × ℤ
  | 0, _, _, flash => (flash, 0)
  | n + 1, i, addr, flash =>
      let v := dword buf (8 * i)
      let d := hal.program (dword flash addr) v
      let flash := overwrite flash addr 8 fun j => if h : j < 8 then d ⟨j, h⟩ else blank
      if dword flash addr ≠ v then (flash, -1)
      else writeDirectly hal buf n (i + 1) (addr + 8) flash

/-- The loop that copies the caller's bytes: `n` of them, to `pos`. -/
def copyBytes (buf : ℤ → BitVec 8) (start : ℤ) (pos : ℕ) : ℕ → Contents → Contents
  | 0, ram => ram
  | n + 1, ram => Function.update (copyBytes buf start pos n ram) (pos + n) (buf (start + n))

/-- The variables of the loop of `flash_port_write`. -/
structure Sector where
  secid : ℕ
  startAddr : ℕ
  startPos : ℕ
  size : ℤ
  /-- How far `buf` has been moved. -/
  buf : ℤ
  totalDw : ℕ
  writeDw : ℕ
  flash : Contents
  /-- The memory from `STMFLASH_BUF` on. -/
  stmflashBuf : Contents

namespace Sector

/-- `write_bytes`. It is negative where `start_pos` is behind what is
programmed. -/
def writeBytes (w : Sector) : ℤ :=
  let writeBytes := (w.writeDw * 8 : ℤ) - w.startPos
  if w.size < writeBytes then w.size else writeBytes

/-- `STMFLASH_BUF` with the sector and the caller's bytes in it. -/
def filled (buf : ℤ → BitVec 8) (w : Sector) : Contents :=
  copyBytes buf w.buf w.startPos w.writeBytes.toNat
    (flashRead32 w.flash (w.secid * stmSectorSize + flashStartAdress) w.stmflashBuf
      (stmSectorSize / 4))

def next (w : Sector) (flash stmflashBuf : Contents) : Sector :=
  let size := w.size - w.writeBytes
  { secid := w.secid + 1
    startPos := 0
    size := size
    buf := w.buf + w.writeBytes
    startAddr := w.startAddr + w.writeDw * 8
    totalDw := ((size + 8) / 8).toNat
    writeDw := if size > stmSectorSize then stmSectorSize / 8 else ((size + 8) / 8).toNat
    flash := flash
    stmflashBuf := stmflashBuf }

end Sector

section

variable (hal : Hal) (buf : ℤ → BitVec 8)

/-- One turn of the loop of `flash_port_write`. -/
def writeSector (w : Sector) : Next Sector (Contents × ℤ) :=
  let stmflashBuf := w.filled buf
  let (flash, ret) := writeDirectly hal stmflashBuf w.writeDw 0 w.startAddr
    (earsePage w.flash w.secid)
  if ret ≠ 0 then .stop (flash, -1)
  else if w.writeDw = w.totalDw then .stop (flash, 0)
  else .cont (w.next flash stmflashBuf)

def firstSector (faddr size : ℕ) (flash stmflashBuf : Contents) : Sector :=
  let startAddr := faddr / 8 * 8
  let endAddr := (faddr + size + 8) / 8 * 8
  let offaddr := startAddr - flashStartAdress
  let secoff := offaddr % stmSectorSize / 8
  let secRemain := stmSectorSize / 8 - secoff
  let totalDw := (endAddr - startAddr) / 8
  { secid := offaddr / stmSectorSize
    startAddr := startAddr
    startPos := secoff * 8 + (faddr - startAddr)
    size := size
    buf := 0
    totalDw := totalDw
    writeDw := if totalDw ≤ secRemain then totalDw else secRemain
    flash := flash
    stmflashBuf := stmflashBuf }

/-- `flash_port_write`, for at most `n` turns of its loop: the flash and the
result. -/
def flashPortWrite (faddr size : ℕ) (flash stmflashBuf : Contents) (n : ℕ) :
    Next Sector (Contents × ℤ) :=
  let startAddr := faddr / 8 * 8
  let endAddr := (faddr + size + 8) / 8 * 8
  if startAddr < flashStartAdress ∨ endAddr > flashEndAddress then .stop (flash, -1)
  else run (writeSector hal buf) n (firstSector faddr size flash stmflashBuf)

end

/-! ### One turn -/

variable {hal : Hal} {buf : ℤ → BitVec 8} {m flash flash' : Contents} {n i addr a : ℕ} {ret : ℤ}

theorem overwrite_dword (h : dword flash' addr = dword m a)
    (hflash : ∀ x, x < addr ∨ addr + 8 ≤ x → flash' x = flash x) :
    flash' = overwrite flash addr 8 fun j => m (a + j) := by
  funext x
  rcases Nat.lt_or_ge x addr with hx | hx
  · rw [overwrite_of_lt hx, hflash x (.inl hx)]
  · rcases Nat.lt_or_ge x (addr + 8) with hx' | hx'
    · obtain ⟨j, rfl⟩ := Nat.exists_eq_add_of_le hx
      have hj : j < 8 := Nat.lt_of_add_lt_add_left hx'
      rw [overwrite_add hj]
      exact congrFun h ⟨j, hj⟩
    · rw [overwrite_of_le hx', hflash x (.inr hx')]

theorem writeDirectly_done (h : writeDirectly hal m n i addr flash = (flash', ret))
    (hret : ret = 0) : flash' = overwrite flash addr (8 * n) fun j => m (8 * i + j) := by
  induction n generalizing i addr flash with
  | zero =>
      cases h
      exact overwrite_zero.symm
  | succ n ih =>
      simp only [writeDirectly] at h
      split at h
      · cases h
        cases hret
      · rename_i hback
        rw [ih h, overwrite_dword (not_not.mp hback) ?_]
        · have happ := overwrite_append (m := flash) (a := addr) (n := 8)
            (g := fun j => m (8 * i + j)) (8 * n)
          rw [show 8 * (n + 1) = 8 + 8 * n by omega, ← happ]
          congr 1
          funext j
          congr 1
          omega
        · rintro x (hx | hx)
          · exact overwrite_of_lt hx
          · exact overwrite_of_le hx

/-- Erased double words can be programmed. -/
theorem writeDirectly_blank (m : Contents) (i : ℕ)
    (hblank : ∀ x, addr ≤ x → x < addr + 8 * n → flash x = blank) :
    (writeDirectly hal m n i addr flash).2 = 0 := by
  induction n generalizing i addr flash with
  | zero => rfl
  | succ n ih =>
      have hold : dword flash addr = fun _ => blank := by
        funext j
        exact hblank _ (Nat.le_add_right _ _) (by omega)
      simp only [writeDirectly, hold, hal.program_blank]
      split
      · rename_i hback
        refine absurd ?_ hback
        funext j
        have hj := overwrite_add (m := flash) (a := addr) (n := 8)
          (g := fun j => if h : j < 8 then dword m (8 * i) ⟨j, h⟩ else blank) j.isLt
        rw [dif_pos j.isLt] at hj
        exact hj
      · refine ih (i + 1) fun x hx hx' => ?_
        rw [overwrite_of_le hx]
        exact hblank x (by omega) (by omega)

theorem copyBytes_eq (start : ℤ) (pos n : ℕ) (ram : Contents) :
    copyBytes buf start pos n ram = overwrite ram pos n fun j => buf (start + j) := by
  induction n with
  | zero => exact overwrite_zero.symm
  | succ n ih => rw [copyBytes, ih, update_overwrite ram pos n fun j => buf (start + j)]

namespace Sector

variable {w w' : Sector}

def base (w : Sector) : ℕ := w.secid * stmSectorSize + flashStartAdress

/-- The flash after a turn in which everything was read back. -/
def flashed (buf : ℤ → BitVec 8) (w : Sector) : Contents :=
  overwrite (earsePage w.flash w.secid) w.startAddr (8 * w.writeDw) (w.filled buf)

end Sector

variable {w w' : Sector}

/-- A turn fails, or it leaves the sector as flashed and is the last exactly if
it was to program all that was left. -/
theorem writeSector_cases (hal : Hal) (buf : ℤ → BitVec 8) (w : Sector) :
    (∃ flash', writeSector hal buf w = .stop (flash', -1)) ∨
    (w.writeDw = w.totalDw ∧ writeSector hal buf w = .stop (w.flashed buf, 0)) ∨
    (w.writeDw ≠ w.totalDw ∧
      writeSector hal buf w = .cont (w.next (w.flashed buf) (w.filled buf))) := by
  rcases hrun : writeDirectly hal (w.filled buf) w.writeDw 0 w.startAddr
    (earsePage w.flash w.secid) with ⟨fl, ret⟩
  by_cases hret : ret = 0
  · have hfl : fl = w.flashed buf := by
      rw [writeDirectly_done hrun hret, Sector.flashed]
      simp only [Nat.mul_zero, Nat.zero_add]
    have hturn : writeSector hal buf w =
        if w.writeDw = w.totalDw then .stop (w.flashed buf, 0)
        else .cont (w.next (w.flashed buf) (w.filled buf)) := by
      simp only [writeSector, hrun, hret, hfl, ne_eq, not_true_eq_false, if_false]
    right
    rcases eq_or_ne w.writeDw w.totalDw with hdw | hdw
    · exact .inl ⟨hdw, hturn.trans (if_pos hdw)⟩
    · exact .inr ⟨hdw, hturn.trans (if_neg hdw)⟩
  · left
    refine ⟨fl, ?_⟩
    simp only [writeSector, hrun, ne_eq, hret, not_false_eq_true, if_true]

theorem writeSector_stop (h : writeSector hal buf w = .stop (flash', 0)) :
    w.writeDw = w.totalDw ∧ flash' = w.flashed buf := by
  rcases writeSector_cases hal buf w with ⟨fl, hw⟩ | ⟨hdw, hw⟩ | ⟨-, hw⟩
  · rw [hw] at h
    cases h
  · rw [hw] at h
    cases h
    exact ⟨hdw, rfl⟩
  · rw [hw] at h
    cases h

theorem writeSector_cont (h : writeSector hal buf w = .cont w') :
    w.writeDw ≠ w.totalDw ∧ w' = w.next (w.flashed buf) (w.filled buf) := by
  rcases writeSector_cases hal buf w with ⟨fl, hw⟩ | ⟨-, hw⟩ | ⟨hdw, hw⟩
  · rw [hw] at h
    cases h
  · rw [hw] at h
    cases h
  · rw [hw] at h
    cases h
    exact ⟨hdw, rfl⟩

/-- A turn succeeds if what it programs is in its sector, or erased. -/
theorem writeSector_blank (hbase : w.base ≤ w.startAddr)
    (hblank : ∀ x, w.base + stmSectorSize ≤ x → x < w.startAddr + 8 * w.writeDw →
      w.flash x = blank) {r : Contents × ℤ} (h : writeSector hal buf w = .stop r) : r.2 = 0 := by
  have herased (x : ℕ) (hx : w.startAddr ≤ x) (hx' : x < w.startAddr + 8 * w.writeDw) :
      earsePage w.flash w.secid x = blank := by
    rcases Nat.lt_or_ge x (w.base + stmSectorSize) with hin | hout
    · exact if_pos ⟨Nat.le_trans hbase hx, hin⟩
    · have hkept : earsePage w.flash w.secid x = w.flash x := overwrite_of_le hout
      exact hkept.trans (hblank x hout hx')
  have hret : (writeDirectly hal (w.filled buf) w.writeDw 0 w.startAddr
      (earsePage w.flash w.secid)).2 = 0 := writeDirectly_blank _ _ herased
  simp only [writeSector, hret, ne_eq, not_true_eq_false, if_false] at h
  split at h
  · cases h
    rfl
  · cases h

end RapidPatch.Hotpatch
