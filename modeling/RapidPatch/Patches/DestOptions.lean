import RapidPatch.Patches.MqttLength
import RapidPatch.Support.Machine

/-!
The patch of the destination options loop.

The loop walks the options of an extension header with an eight-bit count of
the bytes that are left, and takes the length of each option from the packet.
The filter walks the same options and drops the call where an option has no
length, or where the walk would go back. Its third guard, `len - optlen >= len`,
is about an option that is longer than what is left, and compares in `int`: the
difference is not reduced to eight bits, so it is never more than `len` for an
option that has a length. An option that is too long is walked over by both,
the count wraps around, and a packet whose later options bring it back to zero
passes the filter and takes the loop past its header. So the patch closes the
loop exactly on the packets without such an option
(`destopt_patch_iff`).
-/

namespace RapidPatch.Patches

open RapidPatch.Support RapidPatch.Hotpatch

/-! ### The two loops

The filter runs in the interpreter, where a pointer is a 64-bit register: it
does not wrap around before `opt_ptr` does. The counts are bytes. -/

/-- `option`, `opt_ptr` and `len`. -/
structure DestWalk where
  option : ℕ
  optPtr : BitVec 32
  len : BitVec 8
  deriving DecidableEq

/-- `(uint8_t)(*(option + 1) + 2)`. -/
def optLen (mem : Mem) (option : ℕ) : BitVec 8 := mem (BitVec.ofNat 32 (option + 1)) + 2

/-- `(uint8_t)(((*(destopt + 1) + 1) << 3) - 2)`. -/
def destLen (mem : Mem) (destopt : BitVec 32) : BitVec 8 :=
  ((((mem (destopt + 1)).setWidth 32 + 1) <<< 3) - 2).setWidth 8

namespace DestWalk

def advance (mem : Mem) (w : DestWalk) : DestWalk where
  option := w.option + (optLen mem w.option).toNat
  optPtr := w.optPtr + (optLen mem w.option).setWidth 32
  len := w.len - optLen mem w.option

/-- The header and `opt_ptr` at the start of a loop. -/
def start (mem : Mem) (destopt optPtr : BitVec 32) : DestWalk where
  option := destopt.toNat + 2
  optPtr := optPtr
  len := destLen mem destopt

end DestWalk

/-- The guard of the filter. The comparison of the counts is one of `int`s. -/
def Intercepts (mem : Mem) (w : DestWalk) : Prop :=
  w.optPtr + (optLen mem w.option).setWidth 32 ≤ w.optPtr ∨
    w.option + (optLen mem w.option).toNat ≤ w.option ∨
      (w.len.toNat : ℤ) - (optLen mem w.option).toNat ≥ w.len.toNat

instance (mem : Mem) (w : DestWalk) : Decidable (Intercepts mem w) :=
  inferInstanceAs (Decidable (_ ∨ _ ∨ _))

/-- The loop of `filter` of `AMNESIA33_cve_2020_17445.ebpf.c`. -/
def destFilterStep (mem : Mem) (w : DestWalk) : Next DestWalk (BitVec 64) :=
  if w.len = 0 then .stop (setReturn 0 0)
  else if Intercepts mem w then .stop (setReturn 1 ((-1 : BitVec 32).setWidth 64))
  else .cont (w.advance mem)

/-- The loop of `dynamic_patch_dummy_cve2`. The cases of its `switch` do
nothing. -/
def dummyCve2Step (mem : Mem) (w : DestWalk) : Next DestWalk (BitVec 32) :=
  if w.len = 0 then .stop 0 else .cont (w.advance mem)

/-- The filter lets a call pass; it starts two bytes on with `opt_ptr`. -/
def DestFilterPasses (mem : Mem) (destopt optPtr : BitVec 32) : Prop :=
  ∃ n ret, run (destFilterStep mem) n (.start mem destopt (optPtr + 2)) = .stop ret ∧
    filterOp ret = 0

/-- Among the options from `p` on, with `n` bytes left, one is longer than what
is left where it stands. -/
inductive Overlong (mem : Mem) : ℕ → ℕ → Prop
  | here {p n : ℕ} (hn : 0 < n) (h : n < (optLen mem p).toNat) : Overlong mem p n
  | later {p n : ℕ} (hpos : 0 < (optLen mem p).toNat) (hle : (optLen mem p).toNat ≤ n)
      (h : Overlong mem (p + (optLen mem p).toNat) (n - (optLen mem p).toNat)) : Overlong mem p n

section

variable {mem : Mem} {w : DestWalk}

theorem not_overlong_zero (mem : Mem) (p : ℕ) : ¬Overlong mem p 0 := by
  intro h
  cases h with
  | here hn h => exact absurd hn (Nat.lt_irrefl 0)
  | later hpos hle h => omega

theorem overlong_iff_later {p n : ℕ} (hpos : 0 < (optLen mem p).toNat)
    (hle : (optLen mem p).toNat ≤ n) :
    Overlong mem p n ↔
      Overlong mem (p + (optLen mem p).toNat) (n - (optLen mem p).toNat) := by
  refine ⟨fun h => ?_, .later hpos hle⟩
  cases h with
  | here hn h => omega
  | later hpos hle h => exact h

/-- Of the three guards the first says it all: the third, like the second, is
about an option without a length, and that leaves `opt_ptr` where it is. -/
theorem intercepts_iff :
    Intercepts mem w ↔ w.optPtr + (optLen mem w.option).setWidth 32 ≤ w.optPtr := by
  refine ⟨fun h => ?_, .inl⟩
  have hstays (hzero : (optLen mem w.option).toNat = 0) :
      w.optPtr + (optLen mem w.option).setWidth 32 ≤ w.optPtr := by
    rw [BitVec.eq_of_toNat_eq (y := 0#8) hzero]
    exact BitVec.le_of_eq (BitVec.add_zero _)
  rcases h with hptr | hoption | hcount
  · exact hptr
  · exact hstays (by omega)
  · exact hstays (by omega)

theorem optLen_pos_of_not_intercepts (h : ¬Intercepts mem w) : 0 < (optLen mem w.option).toNat := by
  by_contra hzero
  exact h (.inr (.inl (by omega)))

/-! ### Where the walk gets to -/

/-- The unpatched loop ends. -/
def Terminates (mem : Mem) (w : DestWalk) : Prop := ∃ n, run (dummyCve2Step mem) n w = .stop 0

/-- The unpatched loop keeps `option` within a bound. -/
def StaysBelow (mem : Mem) (w : DestWalk) (bound : ℕ) : Prop :=
  ∀ u, Reaches (dummyCve2Step mem) w u → u.option ≤ bound

/-- The turns of the unpatched loop read bytes before a bound. The last byte of
a turn is the length of the option. -/
def ReadsBelow (mem : Mem) (w : DestWalk) (bound : ℕ) : Prop :=
  ∀ u, Reaches (dummyCve2Step mem) w u → u.len ≠ 0 → u.option + 1 < bound

theorem dummyCve2Step_cont (h : w.len ≠ 0) : dummyCve2Step mem w = .cont (w.advance mem) := if_neg h

/-- One turn, where the filter has nothing against it. -/
theorem staysBelow_iff_advance (hlen : w.len ≠ 0) (hpos : 0 < (optLen mem w.option).toNat)
    (ih : StaysBelow mem (w.advance mem) ((w.advance mem).option + (w.advance mem).len.toNat) ↔
      ¬Overlong mem (w.advance mem).option (w.advance mem).len.toNat) :
    StaysBelow mem w (w.option + w.len.toNat) ↔ ¬Overlong mem w.option w.len.toNat := by
  have hn : 0 < w.len.toNat := by
    by_contra hzero
    exact hlen (BitVec.eq_of_toNat_eq (by simpa using hzero))
  have hstep : dummyCve2Step mem w = .cont (w.advance mem) := dummyCve2Step_cont hlen
  have hstays := Reaches.forall_cont_iff (P := fun u => u.option ≤ w.option + w.len.toNat) hstep
  by_cases hle : (optLen mem w.option).toNat ≤ w.len.toNat
  · have hnext : (w.advance mem).len.toNat = w.len.toNat - (optLen mem w.option).toNat :=
      BitVec.toNat_sub_of_le hle
    have hbound : (w.advance mem).option + (w.advance mem).len.toNat = w.option + w.len.toNat := by
      rw [hnext]
      show w.option + _ + _ = _
      omega
    rw [overlong_iff_later hpos hle, ← hnext]
    rw [hbound] at ih
    exact hstays.trans ((and_iff_right (Nat.le_add_right _ _)).trans ih)
  · refine iff_of_false (fun hall => ?_) fun h => h (.here hn (by omega))
    have hfirst : w.option + (optLen mem w.option).toNat ≤ w.option + w.len.toNat :=
      (hstays.mp hall).2 _ (.refl _)
    omega

/-- Without an option that is too long, what is left always ends where the
header does. -/
theorem option_add_len_of_reaches {u : DestWalk} (h : ¬Overlong mem w.option w.len.toNat)
    (hu : Reaches (dummyCve2Step mem) w u) :
    u.option + u.len.toNat = w.option + w.len.toNat ∧ ¬Overlong mem u.option u.len.toNat := by
  induction hu with
  | refl => exact ⟨rfl, h⟩
  | @tail u v hu hstep ih =>
      obtain ⟨hsum, hlong⟩ := ih
      have hlen : u.len ≠ 0 := by
        intro hzero
        rw [dummyCve2Step, if_pos hzero] at hstep
        cases hstep
      have hpos : u.len.toNat ≠ 0 := fun hzero => hlen (BitVec.eq_of_toNat_eq hzero)
      rw [dummyCve2Step_cont hlen] at hstep
      cases hstep
      have hle : (optLen mem u.option).toNat ≤ u.len.toNat := by
        by_contra hlt
        exact hlong (.here (by omega) (by omega))
      have hnext : (u.advance mem).len.toNat = u.len.toNat - (optLen mem u.option).toNat :=
        BitVec.toNat_sub_of_le hle
      have hoption : (u.advance mem).option = u.option + (optLen mem u.option).toNat := rfl
      refine ⟨by omega, fun hover => ?_⟩
      rw [hnext, hoption] at hover
      rcases Nat.eq_zero_or_pos (optLen mem u.option).toNat with hzero | hlenpos
      · rw [hzero] at hover
        exact hlong hover
      · exact hlong (.later hlenpos hle hover)

/-- The loop reads the header, and at most one byte behind it: an option of one
byte at its end has its length there. -/
theorem readsBelow_of_not_overlong (h : ¬Overlong mem w.option w.len.toNat) :
    ReadsBelow mem w (w.option + w.len.toNat + 1) := by
  intro u hu hlen
  obtain ⟨hsum, -⟩ := option_add_len_of_reaches h hu
  have hpos : u.len.toNat ≠ 0 := fun hzero => hlen (BitVec.eq_of_toNat_eq hzero)
  omega

/-- Behind a filter that lets the call pass the loop ends, and it stays in the
header unless an option is too long. -/
theorem walk_of_filter_passes {n : ℕ} {ret : BitVec 64}
    (hrun : run (destFilterStep mem) n w = .stop ret) (hop : filterOp ret = 0) (p : BitVec 32) :
    Terminates mem { w with optPtr := p } ∧
      (StaysBelow mem { w with optPtr := p } (w.option + w.len.toNat) ↔
        ¬Overlong mem w.option w.len.toNat) := by
  induction n generalizing w p with
  | zero => cases hrun
  | succ n ih =>
      by_cases hlen : w.len = 0
      · have hstop : dummyCve2Step mem { w with optPtr := p } = .stop 0 := if_pos hlen
        refine ⟨⟨1, run_succ_stop hstop⟩, iff_of_true ?_ ?_⟩
        · exact (Reaches.forall_stop_iff hstop).mpr (Nat.le_add_right _ _)
        · rw [hlen]
          exact not_overlong_zero mem w.option
      · by_cases hguard : Intercepts mem w
        · have hstop :
              destFilterStep mem w = .stop (setReturn 1 ((-1 : BitVec 32).setWidth 64)) := by
            rw [destFilterStep, if_neg hlen, if_pos hguard]
          rw [run_succ_stop hstop] at hrun
          cases hrun
          exact absurd hop (by decide)
        · have hcont : destFilterStep mem w = .cont (w.advance mem) := by
            rw [destFilterStep, if_neg hlen, if_neg hguard]
          rw [run_succ_cont hcont] at hrun
          have hpos := optLen_pos_of_not_intercepts hguard
          obtain ⟨⟨m, hm⟩, hstays⟩ := ih hrun (p + (optLen mem w.option).setWidth 32)
          have hturn : dummyCve2Step mem { w with optPtr := p } =
              .cont (DestWalk.advance mem { w with optPtr := p }) := dummyCve2Step_cont hlen
          exact ⟨⟨m + 1, (run_succ_cont hturn).trans hm⟩, staysBelow_iff_advance hlen hpos hstays⟩

end

/-- Where the filter lets a call pass, the unpatched loop ends within the
extension header exactly if no option is longer than what is left of it. -/
theorem destopt_patch_iff (mem : Mem) (destopt optPtr : BitVec 32)
    (hpass : DestFilterPasses mem destopt optPtr) :
    (Terminates mem (.start mem destopt optPtr) ∧
      StaysBelow mem (.start mem destopt optPtr)
        (destopt.toNat + 2 + (destLen mem destopt).toNat)) ↔
      ¬Overlong mem (destopt.toNat + 2) (destLen mem destopt).toNat := by
  obtain ⟨n, ret, hrun, hop⟩ := hpass
  obtain ⟨hends, hstays⟩ := walk_of_filter_passes hrun hop optPtr
  exact (and_iff_right hends).trans hstays

def shortHeader : Mem := fun a => if a = 3 then 4 else 0

theorem shortHeader_destopt :
    DestFilterPasses shortHeader 0 0 ∧
      ((Terminates shortHeader (.start shortHeader 0 0) ∧
        StaysBelow shortHeader (.start shortHeader 0 0) 8) ↔ ¬Overlong shortHeader 2 6) :=
  have hpass : DestFilterPasses shortHeader 0 0 := ⟨2, setReturn 0 0, by decide, by decide⟩
  ⟨hpass, destopt_patch_iff shortHeader 0 0 hpass⟩

/-- A header of eight bytes whose options claim 100, 100 and 62 bytes: the
filter counts six bytes down to zero. -/
def overlongHeader : Mem := fun a =>
  if a = 3 then 98 else if a = 103 then 98 else if a = 203 then 60 else 0

theorem overlongHeader_leaves :
    DestFilterPasses overlongHeader 0 0 ∧
      ¬(Terminates overlongHeader (.start overlongHeader 0 0) ∧
        StaysBelow overlongHeader (.start overlongHeader 0 0)
          (2 + (destLen overlongHeader 0).toNat)) := by
  refine ⟨⟨4, setReturn 0 0, by decide, by decide⟩, fun h => ?_⟩
  have hfirst := h.2 ⟨102, 100, 162⟩ (.single (by decide))
  exact absurd hfirst (by decide)

end RapidPatch.Patches
