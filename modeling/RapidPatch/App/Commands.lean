import Mathlib.Algebra.Group.Int.Defs
import RapidPatch.App.Shell
import RapidPatch.Hotpatch.Lifetimes

/-!
The commands of `ihp_cli.c` that take a number.

`str2int` reads any string: a character that is no digit counts as its distance
from `'0'`, and the value wraps. Each handler has its own guard in front of its
table. Three of them let through the number of entries itself, and none looks
for a sign, so an index can be out of its table (`commandNumber_iff`). How the
compiler represents `char` and the enumeration `run_test_t` is left to
parameters.
-/

namespace RapidPatch.App

open RapidPatch.Support
open RapidPatch.Hotpatch

/-! ### Numbers -/

/-- A `char` as an `int`. -/
def charToInt (charSigned : Bool) (c : BitVec 8) : BitVec 32 :=
  if charSigned then c.signExtend 32 else c.setWidth 32

/-- `str2int`. Overflow wraps. -/
def str2int (charSigned : Bool) (str : List (BitVec 8)) : BitVec 32 :=
  str.foldl (fun val c => val * 10 + (charToInt charSigned c - 48)) 0

/-- What a `char` stands for as a digit. -/
def digit (charSigned : Bool) (c : BitVec 8) : ℤ :=
  (if charSigned then c.toInt else (c.toNat : ℤ)) - 48

/-- The value of a string in base ten, its characters taken for digits. -/
def decimalValue (charSigned : Bool) (str : List (BitVec 8)) : ℤ :=
  str.foldl (fun val c => val * 10 + digit charSigned c) 0

theorem charToInt_sub (charSigned : Bool) (c : BitVec 8) :
    charToInt charSigned c - 48 = BitVec.ofInt 32 (digit charSigned c) := by
  rw [digit, Int.sub_eq_add_neg, BitVec.ofInt_add, BitVec.sub_eq_add_neg]
  cases charSigned with
  | false =>
      have hchar : c.setWidth 32 = BitVec.ofInt 32 (c.toNat : ℤ) := by
        rw [BitVec.ofInt_natCast, BitVec.ofNat_toNat]
      rw [charToInt, if_neg Bool.false_ne_true, if_neg Bool.false_ne_true, hchar]
      rfl
  | true =>
      rw [charToInt, if_pos rfl, if_pos rfl]
      rfl

theorem str2int_eq (charSigned : Bool) (str : List (BitVec 8)) :
    str2int charSigned str = BitVec.ofInt 32 (decimalValue charSigned str) := by
  induction str using List.reverseRecOn with
  | nil => rfl
  | append_singleton str c ih =>
      rw [str2int, decimalValue, List.foldl_append, List.foldl_append, ← str2int, ← decimalValue,
        ih]
      simp only [List.foldl_cons, List.foldl_nil]
      rw [charToInt_sub, BitVec.ofInt_add, BitVec.ofInt_mul]
      rfl

/-! ### Dispatch -/

/-- What `shell_dispatch_cmd` does: which handler it calls, with which number.
Words without a number are answered with a usage line, `run` with nothing. -/
inductive ShellCommand
  | exit
  | help
  | run (rid : ℤ)
  | runNothing
  | trigger (tid : ℤ)
  | triggerUsage
  | patch (pid : ℤ)
  | patchUsage
  | vm (tid : ℤ)
  | vmUsage
  | transfer
  | notFound

def bytes (cs : List Char) : List (BitVec 8) := cs.map fun c => BitVec.ofNat 8 c.toNat

/-- `shell_dispatch_cmd`, with the first argument apart: there always is one. -/
def shellDispatchCmd (charSigned : Bool) (arg0 : List (BitVec 8))
    (args : List (List (BitVec 8))) : ShellCommand :=
  let number := args.head?.map fun arg1 => (str2int charSigned arg1).toInt
  if arg0 = bytes ['q'] then .exit
  else if arg0 = bytes ['h'] ∨ arg0 = bytes ['h', 'e', 'l', 'p'] then .help
  else if arg0 = bytes ['r', 'u', 'n'] then number.elim .runNothing .run
  else if arg0 = bytes ['t', 'r', 'i', 'g', 'g', 'e', 'r'] then number.elim .triggerUsage .trigger
  else if arg0 = bytes ['p', 'a', 't', 'c', 'h'] then number.elim .patchUsage .patch
  else if arg0 = bytes ['v', 'm'] then number.elim .vmUsage .vm
  else if arg0 = bytes ['t', 'r', 'a', 'n', 's', 'f', 'e', 'r'] then .transfer
  else .notFound

/-! ### Handlers -/

inductive Table
  | cmds
  | dynamicPatchList
  | fixedPatchList
  | dynamicTriggerFuncList
  | fixedTriggerFuncList
  deriving DecidableEq

structure TableAccess where
  table : Table
  index : ℤ

structure IntType where
  signed : Bool
  bits : ℕ

def IntType.convert (t : IntType) (x : ℤ) : ℤ :=
  if t.signed then x.bmod (2 ^ t.bits) else x % 2 ^ t.bits

/-- `USE_DYNAMIC_PATCH` and `USE_FIX_PATCH`. -/
inductive Patching
  | dynamic
  | fixed
  | neither

/-- What the handlers depend on besides the number: choices of the compiler and
of the configuration. -/
structure Build where
  charSigned : Bool
  /-- The type of the enumeration `run_test_t`. -/
  runTestT : IntType
  patching : Patching
  /-- The number of entries of a table. -/
  entries : Table → ℕ

namespace Build

variable (b : Build)

/-- `run_test_by_id`. The call converts the number of a command to `run_test_t`.
`ncmd` is positive, so the comparison is one of values in every type. -/
def runTestById (cid : ℤ) : Option TableAccess :=
  let cid := b.runTestT.convert cid
  if cid > b.entries .cmds then none else some ⟨.cmds, cid⟩

def handleTriggerFunc (tid : ℤ) : Option TableAccess :=
  match b.patching with
  | .dynamic =>
      if tid ≥ b.entries .dynamicTriggerFuncList then none
      else some ⟨.dynamicTriggerFuncList, tid⟩
  | .fixed =>
      if tid ≥ b.entries .fixedTriggerFuncList then none else some ⟨.fixedTriggerFuncList, tid⟩
  | .neither => none

/-- The entry that `read_local_patch` loads. -/
def readLocalPatch (pid : ℤ) : Option TableAccess :=
  if pid > b.entries .dynamicPatchList then none else some ⟨.dynamicPatchList, pid⟩

/-- The entry that `load_local_fixed_patch` loads. -/
def loadLocalFixedPatch (pid : ℤ) : Option TableAccess :=
  if pid > b.entries .fixedPatchList then none else some ⟨.fixedPatchList, pid⟩

def handlePatchFunc (pid : ℤ) : Option TableAccess :=
  match b.patching with
  | .dynamic => b.readLocalPatch pid
  | .fixed => b.loadLocalFixedPatch pid
  | .neither => none

def access : ShellCommand → Option TableAccess
  | .run rid => b.runTestById rid
  | .trigger tid => b.handleTriggerFunc tid
  | .patch pid => b.handlePatchFunc pid
  | _ => none

/-- No entry is read, or one of the table. -/
def Inside (access : Option TableAccess) : Prop :=
  ∀ a, access = some a → 0 ≤ a.index ∧ a.index < b.entries a.table

end Build

/-! ### The shell and the loaders -/

inductive NumberCommand
  | run
  | patch
  | trigger

def NumberCommand.name : NumberCommand → List (BitVec 8)
  | .run => bytes ['r', 'u', 'n']
  | .patch => bytes ['p', 'a', 't', 'c', 'h']
  | .trigger => bytes ['t', 'r', 'i', 'g', 'g', 'e', 'r']

theorem NumberCommand.plain (cmd : NumberCommand) :
    cmd.name ≠ [] ∧ ∀ c ∈ cmd.name, (c ≠ newline ∧ c ≠ carriageReturn ∧ c ≠ 0) ∧ c ≠ space := by
  cases cmd with
  | run => decide
  | patch => decide
  | trigger => decide

open ShellContext in
/-- The line of such a command calls it with its name and its number. -/
theorem receive_command {devQemu : Bool} {s : ShellContext} (hstart : s.rxPos = 0)
    (cmd : NumberCommand) {str : List (BitVec 8)} (hne : str ≠ [])
    (hstr : ∀ c ∈ str, (c ≠ newline ∧ c ≠ carriageReturn ∧ c ≠ 0) ∧ c ≠ space)
    (hlen : (cmd.name ++ space :: str).length ≤ 127) :
    ∃ d, (s.receiveAll devQemu (cmd.name ++ space :: str)).shellReceiveChar devQemu newline =
        (zero, .processed (cmd.name ++ space :: str ++ [newline]) (some d)) ∧
      List.Forall₂ (StringAt d.memory) d.argv [cmd.name, str] := by
  obtain ⟨hname, hplain⟩ := cmd.plain
  have hwords : words (· == space) (cmd.name ++ space :: str) = [cmd.name, str] := by
    rw [words_append_cons (fun c hc => beq_false_of_ne (hplain c hc).2) hname (beq_self_eq_true _),
      words_of_forall (fun c hc => beq_false_of_ne (hstr c hc).2) hne]
  have hline : ∀ c ∈ cmd.name ++ space :: str, c ≠ newline ∧ c ≠ carriageReturn ∧ c ≠ 0 := by
    intro c hc
    rcases List.mem_append.mp hc with hleft | hright
    · exact (hplain c hleft).1
    · rcases List.mem_cons.mp hright with rfl | hmem
      · decide
      · exact (hstr c hmem).1
  obtain ⟨call, hreceived, hsome, hargs⟩ := @receive_line devQemu s hstart _ hlen hline
  obtain ⟨c, hc⟩ := List.exists_mem_of_ne_nil _ hne
  have hword : ∃ c ∈ cmd.name ++ space :: str, c ≠ space :=
    ⟨c, List.mem_append_right _ (List.mem_cons_of_mem _ hc), (hstr c hc).2⟩
  obtain ⟨d, rfl⟩ := Option.isSome_iff_exists.mp (hsome.mpr hword)
  have hstrings := hargs d rfl
  rw [hwords] at hstrings
  exact ⟨d, hreceived, hstrings⟩

namespace Build

variable (b : Build)

section

variable {F : Type} (env : Env F) (s : HeapSys F) {l : LocalPatches} {pid : ℤ}

theorem gt_of_refused {α : Type} {x n : ℤ} {a : α}
    (hnone : (if x > n then none else some a) = none) : x > n := by
  by_contra hle
  rw [if_neg hle] at hnone
  exact Option.some_ne_none a hnone

theorem readLocalPatch_refused (hl : l.count = b.entries .dynamicPatchList)
    (hnone : b.readLocalPatch pid = none) : s.readLocalPatch env l pid = some s := by
  have hrefused : pid > l.count := hl ▸ gt_of_refused hnone
  rw [HeapSys.readLocalPatch, if_pos hrefused]

theorem loadLocalFixedPatch_refused (hl : l.count = b.entries .fixedPatchList)
    (hnone : b.loadLocalFixedPatch pid = none) : s.loadLocalFixedPatch env l pid = some s := by
  have hrefused : pid > l.count := hl ▸ gt_of_refused hnone
  rw [HeapSys.loadLocalFixedPatch, if_pos hrefused]

end

/-! ### Numbers that fit -/

/-- A guard with `>` lets the number of entries through, and every negative
number. -/
theorem inside_unless_gt (t : Table) (x : ℤ) :
    b.Inside (if x > b.entries t then none else some ⟨t, x⟩) ↔ 0 ≤ x ∧ x ≠ b.entries t := by
  by_cases hgt : x > b.entries t
  · rw [if_pos hgt]
    refine iff_of_true (fun a ha => absurd ha (Option.some_ne_none a).symm) (by omega)
  · rw [if_neg hgt, Inside]
    simp only [Option.some.injEq, forall_eq']
    omega

/-- A guard with `>=` lets every negative number through. -/
theorem inside_unless_ge (t : Table) (x : ℤ) :
    b.Inside (if x ≥ b.entries t then none else some ⟨t, x⟩) ↔ 0 ≤ x := by
  by_cases hge : x ≥ b.entries t
  · rw [if_pos hge]
    refine iff_of_true (fun a ha => absurd ha (Option.some_ne_none a).symm) (by omega)
  · rw [if_neg hge, Inside]
    simp only [Option.some.injEq, forall_eq']
    omega

theorem inside_none : b.Inside none := fun a ha => absurd ha (Option.some_ne_none a).symm

/-- The values that stay in the tables, as 32-bit integers: none that is
negative, and for `run` and `patch` not the number of entries. -/
def NumberFits (value : ℤ) : NumberCommand → Prop
  | .run =>
      let cid := b.runTestT.convert (value.bmod (2 ^ 32))
      0 ≤ cid ∧ cid ≠ b.entries .cmds
  | .patch =>
      match b.patching with
      | .dynamic =>
          0 ≤ value.bmod (2 ^ 32) ∧ value.bmod (2 ^ 32) ≠ b.entries .dynamicPatchList
      | .fixed => 0 ≤ value.bmod (2 ^ 32) ∧ value.bmod (2 ^ 32) ≠ b.entries .fixedPatchList
      | .neither => True
  | .trigger =>
      match b.patching with
      | .neither => True
      | _ => 0 ≤ value.bmod (2 ^ 32)

/-- A command reads an entry of its table, or none, exactly when its number
fits. -/
theorem commandNumber_iff (cmd : NumberCommand) (str : List (BitVec 8)) :
    b.Inside (b.access (shellDispatchCmd b.charSigned cmd.name [str])) ↔
      b.NumberFits (decimalValue b.charSigned str) cmd := by
  have hvalue : (str2int b.charSigned str).toInt =
      (decimalValue b.charSigned str).bmod (2 ^ 32) := by
    rw [str2int_eq, BitVec.toInt_ofInt]
  cases cmd with
  | run =>
      have hcall : shellDispatchCmd b.charSigned NumberCommand.run.name [str] =
          .run (str2int b.charSigned str).toInt := rfl
      rw [hcall, hvalue]
      exact b.inside_unless_gt .cmds _
  | patch =>
      have hcall : shellDispatchCmd b.charSigned NumberCommand.patch.name [str] =
          .patch (str2int b.charSigned str).toInt := rfl
      rw [hcall, hvalue, access, handlePatchFunc, NumberFits]
      cases b.patching with
      | dynamic => exact b.inside_unless_gt .dynamicPatchList _
      | fixed => exact b.inside_unless_gt .fixedPatchList _
      | neither => exact iff_of_true b.inside_none trivial
  | trigger =>
      have hcall : shellDispatchCmd b.charSigned NumberCommand.trigger.name [str] =
          .trigger (str2int b.charSigned str).toInt := rfl
      rw [hcall, hvalue, access, handleTriggerFunc, NumberFits]
      cases b.patching with
      | dynamic => exact b.inside_unless_ge .dynamicTriggerFuncList _
      | fixed => exact b.inside_unless_ge .fixedTriggerFuncList _
      | neither => exact iff_of_true b.inside_none trivial

end Build

/-- The configuration of `defs.h`, for a processor whose `char` has no sign. -/
def defaultBuild : Build where
  charSigned := false
  runTestT := { signed := false, bits := 32 }
  patching := .dynamic
  entries
    | .cmds => 8
    | .dynamicPatchList => 3
    | .fixedPatchList => 4
    | .dynamicTriggerFuncList => 3
    | .fixedTriggerFuncList => 1

/-- `run 8` reads behind the eight commands. -/
theorem not_inside_run :
    ¬defaultBuild.Inside (defaultBuild.access
      (shellDispatchCmd defaultBuild.charSigned NumberCommand.run.name [bytes ['8']])) := by
  intro hinside
  have hlt := (hinside ⟨.cmds, 8⟩ rfl).2
  exact absurd hlt (by decide)

end RapidPatch.App
