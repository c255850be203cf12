import RapidPatch.Hotpatch.Remap
import RapidPatch.Support.Align
import RapidPatch.Support.Spans

/-!
Where the remap table is.

The unit wants its table at a multiple of 32, and the object that holds it is
aligned to words. `get_fpb_patch_remap` rounds the address of the object up,
and the object has ten words for a table of six: that is enough for sixteen
bytes of rounding, and the rounding can take twenty-eight. So the table fits
for some addresses of the object (`remapFits_iff`), and whatever is then written
to the unit stays in it (`storeRemap_outside`); for the others the last words are
written over `active` and what is behind the object.
-/

namespace RapidPatch.Hotpatch

open RapidPatch.Support

/-- The size of `REMAP_ADDR.inst`, which is the offset of `REMAP_ADDR.active`. -/
def remapInstSize : ℕ := 40

section

variable (remapAddr : BitVec 32)

def getFpbPatchRemap : BitVec 32 := (remapAddr + 0x1f) &&& ~~~0x1f#32

def remapWord (i : ℕ) : BitVec 32 := getFpbPatchRemap remapAddr + BitVec.ofNat 32 (4 * i)

/-- The bytes of every word that is written are in `REMAP_ADDR.inst`. -/
def RemapFits : Prop :=
  ∀ i < maxBp, ∀ x, InSpan (remapWord remapAddr i) 4 x → InSpan remapAddr remapInstSize x

/-- What a write of the unit does to the memory. The comparators are
registers. -/
def storeRemap (mem : Mem) : UnitWrite → Mem
  | .comp _ _ => mem
  | .remap i v => store32 mem (remapWord remapAddr i) v

variable {remapAddr} {mem : Mem} {x : BitVec 32}

/-- The table begins at the next multiple of 32. -/
theorem getFpbPatchRemap_sub :
    (getFpbPatchRemap remapAddr - remapAddr).toNat = (32 - remapAddr.toNat % 32) % 32 := by
  have hround : (getFpbPatchRemap remapAddr).toNat = (remapAddr + 0x1f).toNat / 32 * 32 :=
    toNat_and_not_low (remapAddr + 0x1f) 5
  have hlt := remapAddr.isLt
  rw [BitVec.toNat_add] at hround
  rw [BitVec.toNat_sub, hround]
  simp only [BitVec.reduceToNat]
  omega

theorem remapWord_sub {i : ℕ} (hi : i < maxBp) :
    (remapWord remapAddr i - remapAddr).toNat =
      (32 - remapAddr.toNat % 32) % 32 + 4 * i := by
  have hi : i < 6 := hi
  have hword : remapWord remapAddr i - remapAddr =
      (getFpbPatchRemap remapAddr - remapAddr) + BitVec.ofNat 32 (4 * i) := by
    rw [remapWord]
    bv_omega
  rw [hword, BitVec.toNat_add, getFpbPatchRemap_sub, BitVec.toNat_ofNat]
  omega

/-- Writes to words that fit stay in `REMAP_ADDR.inst`. -/
theorem storeRemap_outside (h : RemapFits remapAddr) (hx : ¬InSpan remapAddr remapInstSize x)
    (ws : List UnitWrite) (hws : ∀ w ∈ ws, w.index < maxBp) :
    ws.foldl (storeRemap remapAddr) mem x = mem x := by
  induction ws generalizing mem with
  | nil => rfl
  | cons w ws ih =>
      rw [List.foldl_cons, ih fun v hv => hws v (List.mem_cons_of_mem w hv)]
      cases w with
      | comp i v => rfl
      | remap i v =>
          have hi : i < maxBp := hws _ List.mem_cons_self
          exact store32_outside v fun hin => hx (h i hi x hin)

end

/-- The words of all six comparators are in `REMAP_ADDR.inst` exactly if the
object is at most sixteen bytes in front of a multiple of 32. -/
theorem remapFits_iff (remapAddr : BitVec 32) :
    RemapFits remapAddr ↔ remapAddr.toNat % 32 = 0 ∨ 16 ≤ remapAddr.toNat % 32 := by
  constructor
  · intro h
    have hlast := InSpan.le_of_subset (by decide) (by decide) (h 5 (by decide))
    rw [remapWord_sub (by decide), remapInstSize] at hlast
    omega
  · intro h i hi x hx
    refine hx.mono ?_
    rw [remapWord_sub hi, remapInstSize]
    have hi : i < 6 := hi
    omega

/-- The object four bytes behind a multiple of 32: `active` is in the word of
comparator 3. -/
theorem remap_over_active :
    ¬RemapFits 0x20000004 ∧ (0x20000004 : BitVec 32).toNat % 4 = 0 ∧
      InSpan (remapWord 0x20000004 3) 4 (0x20000004 + BitVec.ofNat 32 remapInstSize) := by
  refine ⟨fun h => ?_, by decide, by unfold InSpan; decide⟩
  have hin := h 3 (by decide) (0x20000004 + BitVec.ofNat 32 remapInstSize)
    (by unfold InSpan; decide)
  unfold InSpan at hin
  exact absurd hin (by decide)

end RapidPatch.Hotpatch
