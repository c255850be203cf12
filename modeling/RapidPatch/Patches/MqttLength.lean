import RapidPatch.Hotpatch.FilterResult
import RapidPatch.Support.Memory
import RapidPatch.Support.Varint

/-!
The patch of the MQTT length decoder.

The decoder reads up to five bytes and lets a length have 35 bits, of which it
keeps 32. The filter looks for the last byte of the length among the first
five bytes, without a look at the end of the buffer, and drops the call unless
it is one of the first four. Where none of the five is, it takes the first for
the last and lets the call pass; then the decoder runs into its own limit. So
what the patched decoder returns has four bytes at most, and on those it is
the decoder (`mqtt_patch`).
-/

namespace RapidPatch.Patches

open RapidPatch.Support RapidPatch.Hotpatch

def setReturn (op retCode : BitVec 64) : BitVec 64 := (op <<< 32) + retCode

/-- `dummy_MQTT_buf_ctx`. The buffer it points into is another object. -/
structure BufCtx where
  cur : BitVec 32
  endPtr : BitVec 32
  deriving DecidableEq

/-! ### The filter -/

/-- `-EINVAL`. -/
def minusEinval : BitVec 32 := -22

def mqttMaxPayloadSize : BitVec 32 := 0x0fffffff

/-- The search for the last byte, with the turns that are left. -/
def mqttEndIndex (f : ℕ → BitVec 8) : ℕ → ℕ → BitVec 8
  | 0, _ => 0
  | n + 1, i => if f i &&& 0x80 = 0 then BitVec.ofNat 8 i else mqttEndIndex f n (i + 1)

/-- The value up to the last byte, with the turns that are left. -/
def mqttLengthLoop (f : ℕ → BitVec 8) : ℕ → ℕ → BitVec 32 → BitVec 32 → BitVec 32
  | 0, _, length, _ => length
  | n + 1, i, length, shift =>
      mqttLengthLoop f n (i + 1) (length + (((f i).setWidth 32 &&& 0x7f) <<< shift)) (shift + 7)

/-- `filter` of `zephyr_cve_2020_10062.ebpf.c`. -/
def mqttFilter (mem : Mem) (buf : BufCtx) : BitVec 64 :=
  let bytes := bytesFrom mem buf.cur
  let endIndex := mqttEndIndex bytes 5 0
  if endIndex.toNat ≥ 4 then setReturn 1 (minusEinval.setWidth 64)
  else
    let length := mqttLengthLoop bytes (endIndex.toNat + 1) 0 0 0
    if length > mqttMaxPayloadSize then setReturn 1 (minusEinval.setWidth 64)
    else setReturn 0 0

/-! ### The decoder -/

/-- What the decoder returns, and what it leaves in `*buf` and `*length`. -/
structure Decoded where
  ret : BitVec 32
  buf : BufCtx
  length : BitVec 32
  deriving DecidableEq

/-- `ERR`. -/
def decodeErr : BitVec 32 := -1

/-- The loop of `dynamic_patch_dummy_cve1`; `left` is `5 - bytes`. -/
def dummyCve1Loop (mem : Mem) : ℕ → BufCtx → BitVec 32 → BitVec 8 → Decoded
  | 0, buf, length, _ => ⟨decodeErr, buf, length⟩
  | left + 1, buf, length, shift =>
      if buf.cur ≥ buf.endPtr then ⟨decodeErr, buf, length⟩
      else
        let b := mem buf.cur
        let length := length + ((b.setWidth 32 &&& 0x7f) <<< shift)
        let buf := { buf with cur := buf.cur + 1 }
        if b &&& 0x80 ≠ 0 then dummyCve1Loop mem left buf length (shift + 7)
        else ⟨0, buf, length⟩

def dynamicPatchDummyCve1 (mem : Mem) (buf : BufCtx) : Decoded := dummyCve1Loop mem 5 buf 0 0

/-- The decoder behind its filter. A call that is dropped leaves `*length` as it
was. -/
def patchedDummyCve1 (mem : Mem) (buf : BufCtx) (length : BitVec 32) : Decoded :=
  let ret := mqttFilter mem buf
  if filterOp ret = 1 then ⟨filterRetCode ret, buf, length⟩ else dynamicPatchDummyCve1 mem buf

/-! ### The last byte -/

section

variable {f : ℕ → BitVec 8} {mem : Mem} {buf : BufCtx} {n i e : ℕ}

theorem mqttEndIndex_of_ends (hends : EndsAt f e) (hi : i ≤ e) (he : e < i + n) :
    mqttEndIndex f n i = BitVec.ofNat 8 e := by
  induction n generalizing i with
  | zero => omega
  | succ n ih =>
      rw [mqttEndIndex]
      rcases Nat.eq_or_lt_of_le hi with rfl | hlt
      · rw [if_pos (and_continuation_eq_zero.mpr hends.last)]
      · rw [if_neg fun h => and_continuation_eq_zero.mp h (hends.before i hlt)]
        exact ih hlt (by omega)

theorem mqttEndIndex_of_continues (h : ∀ j, i ≤ j → j < i + n → Continues (f j)) :
    mqttEndIndex f n i = 0 := by
  induction n generalizing i with
  | zero => rfl
  | succ n ih =>
      rw [mqttEndIndex, if_neg fun h' => and_continuation_eq_zero.mp h' (h i (by omega) (by omega))]
      exact ih fun j hj hlt => h j (by omega) (by omega)

theorem mqttLengthLoop_value (length shift : BitVec 32) (hlen : length.toNat = base128 f i)
    (hshift : shift.toNat = 7 * i) (hn : i + n ≤ 4) :
    (mqttLengthLoop f n i length shift).toNat = base128 f (i + n) := by
  induction n generalizing i length shift with
  | zero => exact hlen
  | succ n ih =>
      have hadd :
          (length + (((f i).setWidth 32 &&& 0x7f) <<< shift)).toNat = base128 f (i + 1) := by
        rw [BitVec.shiftLeft_eq', hshift]
        exact base128_add hlen (by omega)
      rw [mqttLengthLoop, ih _ _ hadd ?_ (by omega)]
      · congr 1
        omega
      · rw [BitVec.toNat_add, hshift]
        show (7 * i + 7) % 2 ^ 32 = _
        omega

/-- A call that is dropped returns an error. -/
theorem mqttFilter_retCode (hop : filterOp (mqttFilter mem buf) = 1) :
    filterRetCode (mqttFilter mem buf) ≠ 0 := by
  have hcases : mqttFilter mem buf = setReturn 1 (minusEinval.setWidth 64) ∨
      mqttFilter mem buf = setReturn 0 0 := by
    simp only [mqttFilter]
    split
    · exact .inl rfl
    · split
      · exact .inl rfl
      · exact .inr rfl
  rcases hcases with hdrop | hpass
  · rw [hdrop]
    decide
  · rw [hpass] at hop
    exact absurd hop (by decide)

theorem mqttFilter_of_index (hindex : mqttEndIndex (bytesFrom mem buf.cur) 5 0 = BitVec.ofNat 8 e)
    (he : e < 5) : filterOp (mqttFilter mem buf) = if e < 4 then 0 else 1 := by
  have hnat : (BitVec.ofNat 8 e).toNat = e := by
    rw [BitVec.toNat_ofNat]
    omega
  simp only [mqttFilter, hindex, hnat]
  by_cases h4 : e < 4
  · have hlen := mqttLengthLoop_value (f := bytesFrom mem buf.cur) (i := 0) (n := e + 1)
      0 0 rfl rfl (by omega)
    have hlt := base128_lt (bytesFrom mem buf.cur) (e + 1)
    have hpow : 128 ^ (e + 1) ≤ 128 ^ 4 := Nat.pow_le_pow_right (by decide) h4
    have hle : ¬mqttLengthLoop (bytesFrom mem buf.cur) (e + 1) 0 0 0 > mqttMaxPayloadSize := by
      rw [gt_iff_lt, BitVec.lt_def, hlen, Nat.zero_add]
      show ¬0x0fffffff < _
      omega
    rw [if_neg (by omega), if_neg hle, if_pos h4]
    decide
  · rw [if_pos (by omega), if_neg h4]
    decide

/-- The filter drops a length that has five bytes. -/
theorem mqttFilter_of_ends (hends : EndsAt (bytesFrom mem buf.cur) e) (he : e < 5) :
    filterOp (mqttFilter mem buf) = if e < 4 then 0 else 1 :=
  mqttFilter_of_index (mqttEndIndex_of_ends hends (Nat.zero_le e) (by omega)) he

/-- A length that does not end is left to the decoder: the index is still zero
behind the loop, and one byte is no large length. -/
theorem mqttFilter_of_continues (h : ∀ j < 5, Continues (bytesFrom mem buf.cur j)) :
    filterOp (mqttFilter mem buf) = 0 := by
  have hindex : mqttEndIndex (bytesFrom mem buf.cur) 5 0 = BitVec.ofNat 8 0 :=
    mqttEndIndex_of_continues fun j _ hlt => h j (by omega)
  exact mqttFilter_of_index hindex (by decide)

/-- The decoder found the last byte at `e`. -/
structure DecodesTo (f : ℕ → BitVec 8) (cur : BitVec 32) (r : Decoded) (e : ℕ) : Prop where
  last : ¬Continues (f e)
  cur : r.buf.cur = cur + BitVec.ofNat 32 (e + 1)
  length : e < 4 → r.length.toNat = base128 f (e + 1)

theorem dummyCve1Loop_succ {cur length : BitVec 32} {shift : BitVec 8}
    (hcur : buf.cur = cur + BitVec.ofNat 32 i) (hend : ¬buf.cur ≥ buf.endPtr) :
    dummyCve1Loop mem (n + 1) buf length shift =
      if Continues (bytesFrom mem cur i) then
        dummyCve1Loop mem n { buf with cur := cur + BitVec.ofNat 32 (i + 1) }
          (length + (((bytesFrom mem cur i).setWidth 32 &&& 0x7f) <<< shift)) (shift + 7)
      else ⟨0, { buf with cur := cur + BitVec.ofNat 32 (i + 1) },
        length + (((bytesFrom mem cur i).setWidth 32 &&& 0x7f) <<< shift)⟩ := by
  have hnext : buf.cur + 1 = cur + BitVec.ofNat 32 (i + 1) := by
    rw [hcur, BitVec.add_assoc, BitVec.ofNat_add]
    rfl
  have hbyte : mem buf.cur = bytesFrom mem cur i := by rw [hcur, bytesFrom]
  rw [dummyCve1Loop, if_neg hend]
  simp only [hbyte, hnext, ne_eq, and_continuation_eq_zero, not_not]

/-- What the decoder returns without an error has its last byte among the first
five. -/
theorem dummyCve1Loop_ret {cur length : BitVec 32} {shift : BitVec 8}
    (hcur : buf.cur = cur + BitVec.ofNat 32 i) (hshift : shift.toNat = 7 * i) (hn : i + n ≤ 5)
    (hlen : i ≤ 4 → length.toNat = base128 (bytesFrom mem cur) i)
    (hret : (dummyCve1Loop mem n buf length shift).ret = 0) :
    ∃ e, i ≤ e ∧ e < i + n ∧ (∀ j, i ≤ j → j < e → Continues (bytesFrom mem cur j)) ∧
      DecodesTo (bytesFrom mem cur) cur (dummyCve1Loop mem n buf length shift) e := by
  induction n generalizing i buf length shift with
  | zero => exact absurd hret (by decide : decodeErr ≠ 0)
  | succ n ih =>
      by_cases hend : buf.cur ≥ buf.endPtr
      · rw [dummyCve1Loop, if_pos hend] at hret
        exact absurd hret (by decide : decodeErr ≠ 0)
      · have hadd (h4 : i < 4) : (length + (((bytesFrom mem cur i).setWidth 32 &&& 0x7f) <<<
            shift)).toNat = base128 (bytesFrom mem cur) (i + 1) := by
          rw [BitVec.shiftLeft_eq', hshift]
          exact base128_add (hlen (by omega)) h4
        rw [dummyCve1Loop_succ hcur hend] at hret ⊢
        by_cases hmore : Continues (bytesFrom mem cur i)
        · rw [if_pos hmore] at hret ⊢
          have hshift' : (shift + 7).toNat = 7 * (i + 1) := by
            rw [BitVec.toNat_add, hshift]
            show (7 * i + 7) % 2 ^ 8 = _
            omega
          obtain ⟨e, hle, hlt, hbefore, he⟩ := ih (i := i + 1) rfl hshift' (by omega)
            (fun h => hadd (by omega)) hret
          refine ⟨e, by omega, by omega, fun j hj hje => ?_, he⟩
          rcases Nat.eq_or_lt_of_le hj with rfl | hlt'
          · exact hmore
          · exact hbefore j hlt' hje
        · rw [if_neg hmore]
          exact ⟨i, Nat.le_refl i, by omega, fun j hj hji => by omega, hmore, rfl, hadd⟩

theorem dynamicPatchDummyCve1_ret (hret : (dynamicPatchDummyCve1 mem buf).ret = 0) :
    ∃ e < 5, EndsAt (bytesFrom mem buf.cur) e ∧
      DecodesTo (bytesFrom mem buf.cur) buf.cur (dynamicPatchDummyCve1 mem buf) e := by
  have hcur : buf.cur = buf.cur + BitVec.ofNat 32 0 := (BitVec.add_zero _).symm
  obtain ⟨e, -, hlt, hbefore, he⟩ :=
    dummyCve1Loop_ret hcur rfl (Nat.le_refl 5) (fun _ => rfl) hret
  exact ⟨e, hlt, ⟨fun j hj => hbefore j (Nat.zero_le j) hj, he.last⟩, he⟩

end

/-- Whatever the patched decoder returns without an error is the base-128 value
of one to four bytes, and it decodes what the unpatched one decodes from at
most four bytes. -/
theorem mqtt_patch (mem : Mem) (buf : BufCtx) (length : BitVec 32) :
    ((patchedDummyCve1 mem buf length).ret = 0 →
      (patchedDummyCve1 mem buf length).length.toNat ≤ 0x0fffffff ∧
        ∃ e < 4, EndsAt (bytesFrom mem buf.cur) e ∧
          (patchedDummyCve1 mem buf length).length.toNat =
            base128 (bytesFrom mem buf.cur) (e + 1)) ∧
      ((dynamicPatchDummyCve1 mem buf).ret = 0 →
        ((dynamicPatchDummyCve1 mem buf).buf.cur - buf.cur).toNat ≤ 4 →
          patchedDummyCve1 mem buf length = dynamicPatchDummyCve1 mem buf) := by
  constructor
  · intro hret
    by_cases hop : filterOp (mqttFilter mem buf) = 1
    · rw [patchedDummyCve1, if_pos hop] at hret
      exact absurd hret (mqttFilter_retCode hop)
    · simp only [patchedDummyCve1, if_neg hop] at hret ⊢
      obtain ⟨e, h5, hends, he⟩ := dynamicPatchDummyCve1_ret hret
      rw [mqttFilter_of_ends hends h5] at hop
      have h4 : e < 4 := by
        by_contra hge
        exact hop (if_neg hge)
      have hpow : 128 ^ (e + 1) ≤ 128 ^ 4 := Nat.pow_le_pow_right (by decide) h4
      have hlt := base128_lt (bytesFrom mem buf.cur) (e + 1)
      rw [he.length h4]
      exact ⟨by omega, e, h4, hends, rfl⟩
  · intro hret hfour
    obtain ⟨e, h5, hends, he⟩ := dynamicPatchDummyCve1_ret hret
    have h4 : e < 4 := by
      rw [he.cur, BitVec.add_comm, BitVec.add_sub_cancel, BitVec.toNat_ofNat] at hfour
      omega
    have hop := mqttFilter_of_ends hends h5
    rw [if_pos h4] at hop
    rw [patchedDummyCve1, hop]
    rfl

/-- Two bytes, `0x85` and `0x01`, at the start of memory. -/
example : patchedDummyCve1 (fun a => if a = 0 then 0x85 else 1) ⟨0, 9⟩ 0 = ⟨0, ⟨2, 9⟩, 133⟩ := by
  decide

end RapidPatch.Patches
