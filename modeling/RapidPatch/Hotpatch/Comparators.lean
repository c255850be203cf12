import RapidPatch.Hotpatch.Breakpoints
import RapidPatch.Support.RoundRobin

/-!
The comparators in debug-monitor mode, over many calls of `add_hw_bkpt`.

They are `Slots` that addresses take in turn (`addHwBkpt_slots`). `cur_idx` is
brought into range by the call after the one that takes the last of them, also
when that call finds its address, so that the slot to be taken next is not
`cur_idx` itself but `nextComp`. Whatever addresses are added from cleared
comparators on, none is in two of them, and each stays until six others that
were not there have been added after it (`addHwBkpts_round_robin`).
-/

namespace RapidPatch.Hotpatch

open RapidPatch.Support

def Fpb.slots (f : Fpb) : Slots (BitVec 32) where
  slot := f.comp
  next := f.nextComp

/-- Cleared comparators, the first of them to be taken next. -/
structure Fpb.Cleared (f : Fpb) : Prop where
  monitor : f.Monitor
  curIdx : f.curIdx = 0
  comp : ∀ i < maxBp, f.comp i = 0

section

variable (flash : BitVec 32 → BitVec 16) (handler : ℕ → BitVec 32) {f : Fpb} {a : BitVec 32}

/-- `add_hw_bkpt` for one address after the other. -/
def addHwBkpts (f : Fpb) (addrs : List (BitVec 32)) : Fpb :=
  addrs.foldl (fun f a => (addHwBkpt flash handler f a).1) f

theorem nextComp_of_isInit (h : f.bpktIsInit = true) (hcur : f.curIdx ≤ maxBp) :
    f.nextComp = f.curIdx % maxBp := by
  unfold Fpb.nextComp
  split
  · rename_i hlt
    exact (Nat.mod_eq_of_lt hlt.2).symm
  · rename_i hge
    have hlast : f.curIdx = maxBp := le_antisymm hcur (Nat.not_lt.mp fun hlt => hge ⟨h, hlt⟩)
    rw [hlast, Nat.mod_self]

theorem addHwBkpt_slots (h : f.Monitor) (ha : a.toNat < 0x20000000) :
    (addHwBkpt flash handler f a).1.slots = f.slots.add maxBp (fpComp a) ∧
      (addHwBkpt flash handler f a).1.curIdx ≤ maxBp ∧
      ∃ i < maxBp, (addHwBkpt flash handler f a).2 = i ∧
        (addHwBkpt flash handler f a).1.comp i = fpComp a := by
  have hlt := f.nextComp_lt
  rw [addHwBkpt_eq flash handler h ha, addNormalBkpt]
  cases hfind : (List.range maxBp).find? fun i => f.comp i = fpComp a with
  | some i =>
      have hi := List.mem_range.mp (List.mem_of_find?_eq_some hfind)
      have hcomp : f.comp i = fpComp a := by simpa using List.find?_some hfind
      refine ⟨?_, hlt.le, i, hi, rfl, hcomp⟩
      rw [Slots.add_of_holds ⟨i, hi, hcomp⟩]
      refine congrArg (Slots.mk f.comp) ?_
      rw [nextComp_of_isInit rfl hlt.le, Nat.mod_eq_of_lt hlt]
  | none =>
      have hnone : ¬f.slots.Holds maxBp (fpComp a) := by
        rintro ⟨i, hi, hcomp⟩
        exact List.find?_eq_none.mp hfind i (List.mem_range.mpr hi) (decide_eq_true hcomp)
      refine ⟨?_, hlt, f.nextComp, hlt, rfl, Function.update_self ..⟩
      rw [Slots.add_of_not_holds hnone]
      exact congrArg (Slots.mk _) (nextComp_of_isInit rfl hlt)

theorem addHwBkpts_slots (h : f.Monitor) (hcur : f.curIdx ≤ maxBp) {addrs : List (BitVec 32)}
    (haddrs : ∀ a ∈ addrs, a.toNat < 0x20000000) :
    (addHwBkpts flash handler f addrs).Monitor ∧
      (addHwBkpts flash handler f addrs).slots = f.slots.addAll maxBp (addrs.map fpComp) ∧
      (addHwBkpts flash handler f addrs).curIdx ≤ maxBp := by
  induction addrs generalizing f with
  | nil => exact ⟨h, rfl, hcur⟩
  | cons a addrs ih =>
      have ha := haddrs a List.mem_cons_self
      obtain ⟨hslots, hcur', -⟩ := addHwBkpt_slots flash handler h ha
      have hmonitor := (addHwBkpt_monitor flash handler h ha).1
      obtain ⟨hm, hs, hc⟩ := ih hmonitor hcur' fun b hb => haddrs b (List.mem_cons_of_mem a hb)
      refine ⟨hm, ?_, hc⟩
      rw [addHwBkpts, List.foldl_cons, List.map_cons, Slots.addAll, List.foldl_cons, ← hslots]
      exact hs

/-- How many of the addresses are in no comparator when they are added. -/
def newAddrs (f : Fpb) : List (BitVec 32) → ℕ
  | [] => 0
  | a :: addrs => (if f.Holds a then 0 else 1) + newAddrs (addHwBkpt flash handler f a).1 addrs

theorem newAddrs_eq (h : f.Monitor) {addrs : List (BitVec 32)}
    (haddrs : ∀ a ∈ addrs, a.toNat < 0x20000000) :
    newAddrs flash handler f addrs = f.slots.newCount maxBp (addrs.map fpComp) := by
  induction addrs generalizing f with
  | nil => rfl
  | cons a addrs ih =>
      have ha := haddrs a List.mem_cons_self
      rw [newAddrs, List.map_cons, Slots.newCount, ← (addHwBkpt_slots flash handler h ha).1,
        ih (addHwBkpt_monitor flash handler h ha).1 fun b hb =>
          haddrs b (List.mem_cons_of_mem a hb)]
      rfl

/-- What is claimed of comparators that are taken in turn. -/
structure Fpb.TakenInTurn (f : Fpb) : Prop where
  curIdx : f.curIdx ≤ maxBp
  distinct : ∀ i < maxBp, ∀ j < maxBp, f.comp i = f.comp j → f.comp i ≠ 0 → i = j
  /-- An address that is added gets the index of a comparator set to it. -/
  index : ∀ a : BitVec 32, a.toNat < 0x20000000 →
    ∃ i < maxBp, (addHwBkpt flash handler f a).2 = i ∧
      (addHwBkpt flash handler f a).1.comp i = fpComp a
  /-- A new one is there until six other new ones have been added. -/
  stays : ∀ a : BitVec 32, a.toNat < 0x20000000 → ¬f.Holds a →
    ∀ later : List (BitVec 32), (∀ b ∈ later, b.toNat < 0x20000000) →
      newAddrs flash handler (addHwBkpt flash handler f a).1 later ≤ maxBp →
      ((addHwBkpts flash handler (addHwBkpt flash handler f a).1 later).Holds a ↔
        newAddrs flash handler (addHwBkpt flash handler f a).1 later < maxBp)

theorem addHwBkpts_round_robin (f : Fpb) (hf : f.Cleared) (addrs : List (BitVec 32))
    (haddrs : ∀ a ∈ addrs, a.toNat < 0x20000000) :
    (addHwBkpts flash handler f addrs).TakenInTurn flash handler := by
  have hstart : f.curIdx ≤ maxBp := by
    rw [hf.curIdx]
    exact Nat.zero_le _
  obtain ⟨hmonitor, hslots, hcur⟩ := addHwBkpts_slots flash handler hf.monitor hstart haddrs
  have hdistinct : f.slots.Distinct maxBp 0 := fun i hi _ _ _ hne => absurd (hf.comp i hi) hne
  have hafter := hdistinct.addAll (addrs.map fpComp)
  rw [← hslots] at hafter
  generalize addHwBkpts flash handler f addrs = g at hmonitor hcur hafter
  refine ⟨hcur, hafter, ?_, ?_⟩
  · intro a ha
    exact (addHwBkpt_slots flash handler hmonitor ha).2.2
  · intro a ha hnew later hlater hcount
    obtain ⟨hadd, hcur', -⟩ := addHwBkpt_slots flash handler hmonitor ha
    have hmonitor' := (addHwBkpt_monitor flash handler hmonitor ha).1
    have hlaterSlots := (addHwBkpts_slots flash handler hmonitor' hcur' hlater).2.1
    have hcounted := newAddrs_eq flash handler hmonitor' hlater
    have hiff := Slots.addAll_holds_iff (r := g.slots) g.nextComp_lt hnew (later.map fpComp)
    rw [← hadd, ← hlaterSlots, ← hcounted] at hiff
    exact hiff hcount

end

theorem seven_addrs_in_turn :
    (addHwBkpts (fun _ => 0xbf00) (fun _ => 0) clearDevice.fpb
      [0x100, 0x200, 0x102, 0x100, 0x300, 0x400, 0x500, 0x600]).TakenInTurn
        (fun _ => 0xbf00) (fun _ => 0) :=
  addHwBkpts_round_robin _ _ clearDevice.fpb ⟨⟨rfl, fun h => by cases h⟩, rfl, fun _ _ => rfl⟩ _
    (by simp)

end RapidPatch.Hotpatch
