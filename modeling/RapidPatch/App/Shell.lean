import Mathlib.Data.List.Forall2
import Mathlib.Data.List.Induction
import RapidPatch.Support.Bytes
import RapidPatch.Support.Words

/-!
The shell of `ihp_cli.c`.

A character goes into a buffer of 128; one that ends a line has the line cut
into words in place, and up to five of them handed to the command. A full
buffer takes no character, and so no end of a line either: the shell is
locked up as soon as a line has 128 characters
(`accepted_iff`). Shorter lines are cut into their words
(`shell_tokenises`).
-/

namespace RapidPatch.App

open RapidPatch.Support

def shellBufferSize : ℕ := 128

def newline : BitVec 8 := 10

def carriageReturn : BitVec 8 := 13

def space : BitVec 8 := 32

abbrev Buffer := ℕ → BitVec 8

structure ShellContext where
  rxPos : ℕ
  rxBuffer : Buffer

/-- The context `memset` leaves. -/
def ShellContext.zero : ShellContext where
  rxPos := 0
  rxBuffer := fun _ => 0

/-- A call of `shell_dispatch_cmd`: the pointers and the memory they lead
to. -/
structure Dispatch where
  argv : List ℕ
  memory : Buffer

/-- What a character makes the shell do: nothing, or process the line it has
collected. -/
inductive ShellEvent
  | waiting
  | processed (line : List (BitVec 8)) (call : Option Dispatch)

namespace ShellContext

def shellLastChar (s : ShellContext) : BitVec 8 := s.rxBuffer (s.rxPos - 1)

def maxArgs : ℕ := 5

/-- The loop of `shell_process`, with the turns that are left. -/
def tokenLoop (rxPos : ℕ) : ℕ → ℕ → Buffer → Option ℕ → List ℕ → Buffer × List ℕ
  | 0, _, buf, _, argv => (buf, argv)
  | n + 1, i, buf, nextArg, argv =>
      if i < rxPos ∧ argv.length < maxArgs then
        if buf i = newline ∨ buf i = space ∨ i = rxPos - 1 then
          tokenLoop rxPos n (i + 1) (Function.update buf i 0) none (argv ++ nextArg.toList)
        else tokenLoop rxPos n (i + 1) buf (nextArg <|> some i) argv
      else (buf, argv)

def line (s : ShellContext) : List (BitVec 8) := (List.range s.rxPos).map s.rxBuffer

def command (s : ShellContext) : Option Dispatch :=
  let (buf, argv) := tokenLoop s.rxPos s.rxPos 0 s.rxBuffer none []
  if 0 < argv.length then some ⟨argv, buf⟩ else none

/-- `shell_process`. The command does not touch the buffer. -/
def shellProcess (s : ShellContext) : ShellContext × ShellEvent :=
  if s.shellLastChar ≠ newline ∧ s.shellLastChar ≠ carriageReturn then (s, .waiting)
  else (zero, .processed s.line s.command)

def store (s : ShellContext) (c : BitVec 8) : ShellContext where
  rxPos := s.rxPos + 1
  rxBuffer := Function.update s.rxBuffer s.rxPos c

/-- `shell_receive_char`. Whether `DEV_QEMU` is defined is a parameter: without
it, carriage returns are dropped. -/
def shellReceiveChar (devQemu : Bool) (s : ShellContext) (c : BitVec 8) :
    ShellContext × ShellEvent :=
  if (devQemu = false ∧ c = carriageReturn) ∨ shellBufferSize ≤ s.rxPos then (s, .waiting)
  else (s.store c).shellProcess

def receiveAll (devQemu : Bool) (s : ShellContext) (cs : List (BitVec 8)) : ShellContext :=
  cs.foldl (fun s c => (s.shellReceiveChar devQemu c).1) s

end ShellContext

/-! ### Strings -/

def StringAt (buf : Buffer) (a : ℕ) (w : List (BitVec 8)) : Prop :=
  0 ∉ w ∧ HasAt buf a (w ++ [0])

/-! ### Cutting a line into words -/

def Plain (c : BitVec 8) : Prop := c ≠ 0 ∧ c ≠ newline ∧ (c == space) = false

/-- What the loop knows in front of a character: `done` are the words it has
cut, `cur` is the word it is in. -/
structure Scanned (buf : Buffer) (i : ℕ) (nextArg : Option ℕ) (argv : List ℕ)
    (cur : List (BitVec 8)) (done : List (List (BitVec 8))) : Prop where
  cut : List.Forall₂ (fun a w => StringAt buf a w ∧ a + w.length < i) argv done
  current : ∀ a, nextArg = some a → cur ≠ [] ∧ a + cur.length = i ∧ HasAt buf a cur
  outside : nextArg = none → cur = []
  plain : ∀ c ∈ cur, Plain c

namespace Scanned

variable {buf : Buffer} {i : ℕ} {nextArg : Option ℕ} {argv : List ℕ} {cur : List (BitVec 8)}
  {done : List (List (BitVec 8))}

theorem separate (h : Scanned buf i nextArg argv cur done) :
    Scanned (Function.update buf i 0) (i + 1) none (argv ++ nextArg.toList) []
      (done ++ words (· == space) cur) where
  cut := by
    have hkept : List.Forall₂ (fun a w => StringAt (Function.update buf i 0) a w ∧
        a + w.length < i + 1) argv done := by
      refine h.cut.imp ?_
      rintro a w ⟨⟨hplain, hat⟩, hlt⟩
      refine ⟨⟨hplain, hat.update (Or.inr ?_) 0⟩, Nat.lt_succ_of_lt hlt⟩
      rwa [List.length_append, List.length_singleton]
    cases hnext : nextArg with
    | none =>
        rw [h.outside hnext, words_nil, List.append_nil]
        simpa using hkept
    | some a =>
        obtain ⟨hne, hend, hat⟩ := h.current a hnext
        rw [words_of_forall (fun c hc => (h.plain c hc).2.2) hne]
        refine List.rel_append hkept (List.Forall₂.cons ⟨⟨?_, ?_⟩, ?_⟩ List.Forall₂.nil)
        · exact fun hzero => (h.plain 0 hzero).1 rfl
        · refine (hat.update (Or.inr (Nat.le_of_eq hend)) 0).concat ?_
          rw [hend, Function.update_self]
        · exact Nat.lt_succ_of_le (Nat.le_of_eq hend)
  current := fun _ hnone => absurd hnone (Option.some_ne_none _).symm
  outside := fun _ => rfl
  plain := fun _ hc => absurd hc List.not_mem_nil

theorem extend {c : BitVec 8} (h : Scanned buf i nextArg argv cur done) (hc : buf i = c)
    (hplain : Plain c) :
    Scanned buf (i + 1) (nextArg <|> some i) argv (cur ++ [c]) done where
  cut := h.cut.imp fun _ _ hw => ⟨hw.1, Nat.lt_succ_of_lt hw.2⟩
  current := by
    intro a ha
    refine ⟨List.append_ne_nil_of_right_ne_nil _ (List.cons_ne_nil _ _), ?_⟩
    rw [List.length_append, List.length_singleton]
    cases hnext : nextArg with
    | none =>
        obtain rfl : i = a := by simpa [hnext] using ha
        rw [h.outside hnext]
        exact ⟨rfl, HasAt.concat (fun j hj => absurd hj (Nat.not_lt_zero j)) hc⟩
    | some a' =>
        obtain rfl : a' = a := by simpa [hnext] using ha
        obtain ⟨-, hend, hat⟩ := h.current a' hnext
        exact ⟨by omega, hat.concat (by rwa [hend])⟩
  outside := by
    intro hnone
    cases hnext : nextArg with
    | none => simp [hnext] at hnone
    | some a => simp [hnext] at hnone
  plain := by
    intro c' hc'
    rcases List.mem_append.mp hc' with hcur | hlast
    · exact h.plain c' hcur
    · rwa [List.mem_singleton.mp hlast]

theorem strings (h : Scanned buf i nextArg argv cur done) :
    List.Forall₂ (StringAt buf) argv done :=
  h.cut.imp fun _ _ hw => hw.1

theorem strings_of_full (h : Scanned buf i nextArg argv cur done)
    (hfull : argv.length = ShellContext.maxArgs) (ws : List (List (BitVec 8))) :
    List.Forall₂ (StringAt buf) argv (done ++ ws.take (ShellContext.maxArgs - done.length)) := by
  rw [← h.cut.length_eq, hfull, Nat.sub_self, List.take_zero, List.append_nil]
  exact h.strings

theorem length_eq (h : Scanned buf i nextArg argv cur done) : argv.length = done.length :=
  h.cut.length_eq

end Scanned

open ShellContext

theorem tokenLoop_of_full {argv : List ℕ} (hfull : argv.length = maxArgs) (rxPos n i : ℕ)
    (buf : Buffer) (nextArg : Option ℕ) :
    tokenLoop rxPos (n + 1) i buf nextArg argv = (buf, argv) := by
  rw [tokenLoop, if_neg fun h => absurd hfull (Nat.ne_of_lt h.2)]

/-- The loop cuts what is left of a line into words, as long as there are
fewer than five. -/
theorem tokenLoop_spec {rxPos i : ℕ} {buf : Buffer} {nextArg : Option ℕ} {argv : List ℕ}
    {cur rest : List (BitVec 8)} {done : List (List (BitVec 8))}
    (h : Scanned buf i nextArg argv cur done) (hargs : argv.length ≤ maxArgs)
    (hrest : ∀ c ∈ rest, c ≠ 0 ∧ c ≠ newline) (hat : HasAt buf i (rest ++ [newline]))
    (hpos : rxPos = i + rest.length + 1) :
    List.Forall₂ (StringAt (tokenLoop rxPos (rest.length + 1) i buf nextArg argv).1)
      (tokenLoop rxPos (rest.length + 1) i buf nextArg argv).2
      (done ++ (words (· == space) (cur ++ rest)).take (maxArgs - done.length)) := by
  induction rest generalizing i buf nextArg argv cur done with
  | nil =>
      rcases Nat.lt_or_eq_of_le hargs with hlt | hfull
      · have hend : i = rxPos - 1 := by rw [hpos]; rfl
        have hone := length_words_le fun c hc => (h.plain c hc).2.2
        rw [List.length_nil, tokenLoop, if_pos ⟨by omega, hlt⟩, if_pos (Or.inr (Or.inr hend)),
          tokenLoop, List.append_nil, List.take_of_length_le]
        · exact h.separate.strings
        · rw [← h.length_eq]
          omega
      · rw [tokenLoop_of_full hfull]
        exact h.strings_of_full hfull _
  | cons c rest ih =>
      rcases Nat.lt_or_eq_of_le hargs with hlt | hfull
      · obtain ⟨hzero, hline⟩ := hrest c List.mem_cons_self
        have hc : buf i = c := hat.head
        have hrest' : ∀ c ∈ rest, c ≠ 0 ∧ c ≠ newline :=
          fun c hc => hrest c (List.mem_cons_of_mem _ hc)
        rw [List.length_cons] at hpos
        rw [List.length_cons, tokenLoop, if_pos ⟨by omega, hlt⟩, hc]
        have hpos' : rxPos = i + 1 + rest.length + 1 := by omega
        by_cases hspace : c = space
        · have hsep := fun c hc => (h.plain c hc).2.2
          have hone := length_words_le hsep
          have hcut := h.separate
          have hfew := h.length_eq
          have hlen := hcut.length_eq.trans List.length_append
          have hat' := hat.tail.update (Or.inl (Nat.lt_succ_self i)) 0
          have hrun := ih hcut (by omega) hrest' hat' hpos'
          rw [if_pos (Or.inr (Or.inl hspace)), words_append_sep hsep (by simpa using hspace),
            List.take_append, List.take_of_length_le (by omega), Nat.sub_sub,
            ← List.length_append, ← List.append_assoc]
          exact hrun
        · have hend : i ≠ rxPos - 1 := by omega
          have hgrown := h.extend hc ⟨hzero, hline, by simpa using hspace⟩
          have hrun := ih hgrown hargs hrest' hat.tail hpos'
          rw [if_neg (by tauto)]
          rwa [List.append_assoc, List.singleton_append] at hrun
      · rw [tokenLoop_of_full hfull]
        exact h.strings_of_full hfull _

/-! ### Receiving a line -/

def EndsLine (devQemu : Bool) (c : BitVec 8) : Prop :=
  c = newline ∨ devQemu = true ∧ c = carriageReturn

instance (devQemu : Bool) (c : BitVec 8) : Decidable (EndsLine devQemu c) :=
  inferInstanceAs (Decidable (_ ∨ _))

namespace ShellContext

structure Holds (s : ShellContext) (xs : List (BitVec 8)) : Prop where
  rxPos_eq : s.rxPos = xs.length
  hasAt : HasAt s.rxBuffer 0 xs

variable {devQemu : Bool} {s : ShellContext} {xs : List (BitVec 8)} {c : BitVec 8}

theorem holds_nil (h : s.rxPos = 0) : s.Holds [] :=
  ⟨h, fun i hi => absurd hi (Nat.not_lt_zero i)⟩

theorem Holds.store (h : s.Holds xs) (c : BitVec 8) : (s.store c).Holds (xs ++ [c]) where
  rxPos_eq := by
    rw [List.length_append, List.length_singleton, ← h.rxPos_eq]
    rfl
  hasAt := by
    have hpos : 0 + xs.length = s.rxPos := by rw [Nat.zero_add, h.rxPos_eq]
    refine (h.hasAt.update (Or.inr (Nat.le_of_eq hpos)) c).concat ?_
    rw [hpos, Function.update_self]

theorem Holds.line_eq (h : s.Holds xs) : s.line = xs := by
  have hbytes := h.hasAt.bytesAt
  rw [← h.rxPos_eq] at hbytes
  simpa [bytesAt, line] using hbytes

theorem shellLastChar_store (s : ShellContext) (c : BitVec 8) : (s.store c).shellLastChar = c :=
  Function.update_self _ _ _

theorem shellReceiveChar_of_full (hfull : shellBufferSize ≤ s.rxPos) :
    s.shellReceiveChar devQemu c = (s, .waiting) :=
  if_pos (Or.inr hfull)

theorem shellReceiveChar_inside (hc : c ≠ newline ∧ c ≠ carriageReturn)
    (hroom : s.rxPos < shellBufferSize) : s.shellReceiveChar devQemu c = (s.store c, .waiting) := by
  have hkept : ¬((devQemu = false ∧ c = carriageReturn) ∨ shellBufferSize ≤ s.rxPos) :=
    not_or.mpr ⟨fun h => hc.2 h.2, Nat.not_le_of_lt hroom⟩
  rw [shellReceiveChar, if_neg hkept, shellProcess, shellLastChar_store, if_pos hc]

theorem Holds.shellReceiveChar_end (h : s.Holds xs) (hc : EndsLine devQemu c)
    (hroom : xs.length < shellBufferSize) :
    s.shellReceiveChar devQemu c = (zero, .processed (xs ++ [c]) (s.store c).command) := by
  have hkept : ¬((devQemu = false ∧ c = carriageReturn) ∨ shellBufferSize ≤ s.rxPos) := by
    rw [h.rxPos_eq]
    rintro (⟨hdrop, rfl⟩ | hfull)
    · rcases hc with hc | ⟨hqemu, -⟩
      · exact absurd hc (by decide)
      · exact Bool.noConfusion (hdrop.symm.trans hqemu)
    · exact Nat.not_le_of_lt hroom hfull
  have hends : ¬(c ≠ newline ∧ c ≠ carriageReturn) :=
    fun h => hc.elim h.1 fun hreturn => h.2 hreturn.2
  rw [shellReceiveChar, if_neg hkept, shellProcess, shellLastChar_store, if_neg hends,
    (h.store c).line_eq]

/-- The words of the line become the arguments of the command. -/
theorem Holds.command_spec {line : List (BitVec 8)} (h : s.Holds (line ++ [newline]))
    (hline : ∀ c ∈ line, c ≠ 0 ∧ c ≠ newline) :
    (s.command.isSome ↔ ∃ c ∈ line, c ≠ space) ∧
      ∀ d, s.command = some d →
        List.Forall₂ (StringAt d.memory) d.argv ((words (· == space) line).take maxArgs) := by
  have hpos : s.rxPos = line.length + 1 := by
    rw [h.rxPos_eq, List.length_append, List.length_singleton]
  have hstart : Scanned s.rxBuffer 0 none [] [] [] :=
    { cut := List.Forall₂.nil
      current := fun _ hnone => absurd hnone (Option.some_ne_none _).symm
      outside := fun _ => rfl
      plain := fun _ hc => absurd hc List.not_mem_nil }
  have hend : line.length + 1 = 0 + line.length + 1 := by rw [Nat.zero_add]
  have hwords := tokenLoop_spec hstart (Nat.zero_le _) hline h.hasAt hend
  rw [List.nil_append, List.nil_append, List.length_nil, Nat.sub_zero] at hwords
  rw [command, hpos]
  generalize tokenLoop (line.length + 1) (line.length + 1) 0 s.rxBuffer none [] = r at hwords
  have hsome : 0 < r.2.length ↔ ∃ c ∈ line, c ≠ space := by
    have hnil := not_congr (@words_eq_nil_iff _ (· == space) line)
    have hfive : 0 < maxArgs := by decide
    rw [hwords.length_eq, List.length_take, Nat.lt_min, and_iff_right hfive,
      List.length_pos_iff, Ne, hnil]
    simp
  by_cases hargs : 0 < r.2.length
  · simp only [if_pos hargs, Option.isSome_some, true_iff, Option.some.injEq]
    refine ⟨hsome.mp hargs, ?_⟩
    rintro d rfl
    exact hwords
  · simp only [if_neg hargs, Option.isSome_none, Bool.false_eq_true, false_iff]
    exact ⟨fun h => hargs (hsome.mpr h), fun d hnone => absurd hnone (Option.some_ne_none d).symm⟩

theorem Holds.receiveAll {line : List (BitVec 8)} (h : s.Holds xs)
    (hline : ∀ c ∈ line, c ≠ newline ∧ c ≠ carriageReturn)
    (hroom : xs.length + line.length ≤ shellBufferSize) :
    (s.receiveAll devQemu line).Holds (xs ++ line) := by
  induction line generalizing s xs with
  | nil =>
      rw [List.append_nil]
      exact h
  | cons c line ih =>
      rw [List.length_cons] at hroom
      have hpos : s.rxPos < shellBufferSize := by
        rw [h.rxPos_eq]
        omega
      have hrest := ih (h.store c) (fun c hc => hline c (List.mem_cons_of_mem _ hc)) (by
        rw [List.length_append, List.length_singleton]
        omega)
      rw [List.append_assoc, List.singleton_append] at hrest
      rwa [ShellContext.receiveAll, List.foldl_cons,
        shellReceiveChar_inside (hline c List.mem_cons_self) hpos]

end ShellContext

/-- A line from the start, with the newline behind it: its words are the
arguments of the command. -/
theorem receive_line {devQemu : Bool} {s : ShellContext} (hstart : s.rxPos = 0)
    {line : List (BitVec 8)} (hlen : line.length ≤ 127)
    (hline : ∀ c ∈ line, c ≠ newline ∧ c ≠ carriageReturn ∧ c ≠ 0) :
    ∃ call, (s.receiveAll devQemu line).shellReceiveChar devQemu newline =
        (zero, .processed (line ++ [newline]) call) ∧
      (call.isSome ↔ ∃ c ∈ line, c ≠ space) ∧
      ∀ d, call = some d →
        List.Forall₂ (StringAt d.memory) d.argv ((words (· == space) line).take maxArgs) := by
  have hsize : shellBufferSize = 128 := rfl
  have hheld : (s.receiveAll devQemu line).Holds ([] ++ line) := by
    refine (holds_nil hstart).receiveAll (fun c hc => ⟨(hline c hc).1, (hline c hc).2.1⟩) ?_
    rw [List.length_nil]
    omega
  have hcommand := (hheld.store newline).command_spec
    fun c hc => ⟨(hline c hc).2.2, (hline c hc).1⟩
  exact ⟨_, hheld.shellReceiveChar_end (Or.inl rfl) (Nat.lt_succ_of_le hlen), hcommand⟩

/-- A line of up to 127 characters is taken in silence; the newline behind it
has its words handed to the command, at most five of them. -/
theorem shell_tokenises (devQemu : Bool) {s : ShellContext} (hstart : s.rxPos = 0)
    {line : List (BitVec 8)} (hlen : line.length ≤ 127)
    (hline : ∀ c ∈ line, c ≠ newline ∧ c ≠ carriageReturn ∧ c ≠ 0) :
    (∀ pre c, pre ++ [c] <+: line →
        ((s.receiveAll devQemu pre).shellReceiveChar devQemu c).2 = .waiting) ∧
      ∃ call, (s.receiveAll devQemu line).shellReceiveChar devQemu newline =
          (zero, .processed (line ++ [newline]) call) ∧
        (call.isSome ↔ ∃ c ∈ line, c ≠ space) ∧
        ∀ d, call = some d →
          d.argv.length = min 5 (words (· == space) line).length ∧
            List.Forall₂ (StringAt d.memory) d.argv ((words (· == space) line).take 5) := by
  refine ⟨?_, ?_⟩
  · intro pre c hpre
    have hends : ∀ c' ∈ pre ++ [c], c' ≠ newline ∧ c' ≠ carriageReturn :=
      fun c' hc' => ⟨(hline c' (hpre.subset hc')).1, (hline c' (hpre.subset hc')).2.1⟩
    have hle := hpre.length_le
    rw [List.length_append, List.length_singleton] at hle
    have hsize : shellBufferSize = 128 := rfl
    have hheld : (s.receiveAll devQemu pre).Holds ([] ++ pre) := by
      refine (holds_nil hstart).receiveAll
        (fun c' hc' => hends c' (List.mem_append_left _ hc')) ?_
      rw [List.length_nil]
      omega
    rw [shellReceiveChar_inside (hends c List.mem_concat_self)]
    rw [hheld.rxPos_eq, List.nil_append]
    omega
  · obtain ⟨call, hreceived, hsome, hargs⟩ := receive_line hstart hlen hline
    refine ⟨call, hreceived, hsome, fun d hd => ?_⟩
    have hstrings := hargs d hd
    exact ⟨hstrings.length_eq.trans (List.length_take ..), hstrings⟩

theorem shell_tokenises_run :
    ∃ d, (receiveAll false zero [114, 117, 110, 32, 49]).shellReceiveChar false newline =
        (zero, .processed [114, 117, 110, 32, 49, 10] (some d)) ∧
      d.argv.length = 2 ∧ List.Forall₂ (StringAt d.memory) d.argv [[114, 117, 110], [49]] := by
  obtain ⟨-, call, hreceived, hsome, hargs⟩ :=
    @shell_tokenises false zero rfl [114, 117, 110, 32, 49] (by decide) (by decide)
  obtain ⟨d, rfl⟩ := Option.isSome_iff_exists.mp (hsome.mpr ⟨114, by decide, by decide⟩)
  obtain ⟨hlen, hstrings⟩ := hargs d rfl
  exact ⟨d, hreceived, hlen, hstrings⟩

/-! ### Lines that end -/

/-- What has come in since the last end of a line, without the carriage
returns that are dropped. -/
def currentLine (devQemu : Bool) (cs : List (BitVec 8)) : List (BitVec 8) :=
  cs.foldl (fun l c =>
    if EndsLine devQemu c then [] else if c = carriageReturn then l else l ++ [c]) []

/-- Every line that has ended had room in the buffer, with its end. -/
def LinesFit (devQemu : Bool) (cs : List (BitVec 8)) : Prop :=
  ∀ pre c, pre ++ [c] <+: cs → EndsLine devQemu c →
    (currentLine devQemu pre).length < shellBufferSize

/-- A newline behind these characters has the line processed, or as much of
it as was kept, and the shell is back at its start. -/
def Accepted (devQemu : Bool) (pre : List (BitVec 8)) : Prop :=
  ∃ kept call, kept <+: currentLine devQemu pre ∧
    (receiveAll devQemu zero pre).shellReceiveChar devQemu newline =
      (zero, .processed (kept ++ [newline]) call)

section

variable {devQemu : Bool} {cs pre : List (BitVec 8)} {c : BitVec 8}

theorem currentLine_concat :
    currentLine devQemu (cs ++ [c]) =
      if EndsLine devQemu c then [] else if c = carriageReturn then currentLine devQemu cs
      else currentLine devQemu cs ++ [c] := by
  rw [currentLine, List.foldl_append]
  rfl

theorem currentLine_of_forall (hcs : ∀ c ∈ cs, c ≠ newline ∧ c ≠ carriageReturn) :
    currentLine devQemu cs = cs := by
  induction cs using List.reverseRecOn with
  | nil => rfl
  | append_singleton cs c ih =>
      obtain ⟨hline, hreturn⟩ := hcs c List.mem_concat_self
      rw [currentLine_concat, if_neg (fun hends => hends.elim hline fun h => hreturn h.2),
        if_neg hreturn, ih fun c hc => hcs c (List.mem_append_left _ hc)]

theorem receiveAll_concat (s : ShellContext) :
    receiveAll devQemu s (cs ++ [c]) =
      ((receiveAll devQemu s cs).shellReceiveChar devQemu c).1 := by
  rw [receiveAll, List.foldl_append]
  rfl

theorem linesFit_concat :
    LinesFit devQemu (cs ++ [c]) ↔
      LinesFit devQemu cs ∧
        (EndsLine devQemu c → (currentLine devQemu cs).length < shellBufferSize) := by
  constructor
  · intro h
    exact ⟨fun pre c' hpre => h pre c' (hpre.trans (List.prefix_append cs [c])),
      h cs c List.prefix_rfl⟩
  · rintro ⟨hbefore, hlast⟩ pre c' hpre hends
    rcases List.prefix_concat_iff.mp hpre with heq | hshort
    · obtain ⟨rfl, rfl⟩ : pre = cs ∧ c' = c := by simpa using List.append_inj' heq rfl
      exact hlast hends
    · exact hbefore pre c' hshort hends

end

/-- What the shell knows after some characters: the start of the line that
they leave, as far as there is room. With a line that did not fit, the buffer
has been full since. -/
structure Tracks (devQemu : Bool) (s : ShellContext) (cs : List (BitVec 8)) : Prop where
  fitting : LinesFit devQemu cs → s.Holds ((currentLine devQemu cs).take shellBufferSize)
  stuck : ¬LinesFit devQemu cs → shellBufferSize ≤ s.rxPos

namespace Tracks

variable {devQemu : Bool} {s : ShellContext} {cs : List (BitVec 8)}

theorem zero (devQemu : Bool) : Tracks devQemu zero [] where
  fitting := fun _ => holds_nil rfl
  stuck := fun hnot => absurd (fun pre c hpre => absurd (List.prefix_nil.mp hpre)
    (List.append_ne_nil_of_right_ne_nil pre (List.cons_ne_nil c []))) hnot

theorem of_room (h : Tracks devQemu s cs) (hroom : s.rxPos < shellBufferSize) :
    LinesFit devQemu cs ∧ (currentLine devQemu cs).length < shellBufferSize ∧
      s.Holds (currentLine devQemu cs) := by
  have hfit : LinesFit devQemu cs := Classical.byContradiction fun hnot =>
    Nat.not_le_of_lt hroom (h.stuck hnot)
  have hholds := h.fitting hfit
  have hlen := hholds.rxPos_eq
  rw [List.length_take] at hlen
  have hshort : (currentLine devQemu cs).length < shellBufferSize := by omega
  rw [List.take_of_length_le (Nat.le_of_lt hshort)] at hholds
  exact ⟨hfit, hshort, hholds⟩

theorem of_full (h : Tracks devQemu s cs) (hfull : shellBufferSize ≤ s.rxPos)
    (hfit : LinesFit devQemu cs) : shellBufferSize ≤ (currentLine devQemu cs).length := by
  have hlen := (h.fitting hfit).rxPos_eq
  rw [List.length_take] at hlen
  omega

theorem step (h : Tracks devQemu s cs) (c : BitVec 8) :
    Tracks devQemu (s.shellReceiveChar devQemu c).1 (cs ++ [c]) := by
  rcases Nat.lt_or_ge s.rxPos shellBufferSize with hroom | hfull
  · obtain ⟨hfit, hshort, hholds⟩ := h.of_room hroom
    refine ⟨fun _ => ?_, fun hnot => absurd (linesFit_concat.mpr ⟨hfit, fun _ => hshort⟩) hnot⟩
    rw [currentLine_concat]
    by_cases hends : EndsLine devQemu c
    · rw [if_pos hends, hholds.shellReceiveChar_end hends hshort]
      exact holds_nil rfl
    rw [if_neg hends]
    by_cases hreturn : c = carriageReturn
    · have hqemu : devQemu = false := by
        rw [← Bool.not_eq_true]
        exact fun hqemu => hends (Or.inr ⟨hqemu, hreturn⟩)
      rw [if_pos hreturn, shellReceiveChar, if_pos (Or.inl ⟨hqemu, hreturn⟩),
        List.take_of_length_le (Nat.le_of_lt hshort)]
      exact hholds
    · have hinside : c ≠ newline ∧ c ≠ carriageReturn :=
        ⟨fun hline => hends (Or.inl hline), hreturn⟩
      rw [if_neg hreturn, shellReceiveChar_inside hinside hroom, List.take_of_length_le]
      · exact hholds.store c
      · rwa [List.length_append, List.length_singleton]
  · rw [shellReceiveChar_of_full hfull]
    refine ⟨fun hfit => ?_, fun _ => hfull⟩
    obtain ⟨hbefore, hlast⟩ := linesFit_concat.mp hfit
    have hlong := h.of_full hfull hbefore
    rw [currentLine_concat, if_neg fun hends => Nat.not_lt_of_le hlong (hlast hends)]
    split
    · exact h.fitting hbefore
    · rw [List.take_append_of_le_length hlong]
      exact h.fitting hbefore

theorem receiveAll (devQemu : Bool) (cs : List (BitVec 8)) :
    Tracks devQemu (receiveAll devQemu ShellContext.zero cs) cs := by
  induction cs using List.reverseRecOn with
  | nil => exact zero devQemu
  | append_singleton cs c ih =>
      rw [receiveAll_concat]
      exact ih.step c

end Tracks

theorem accepted_iff_linesFit {devQemu : Bool} {pre : List (BitVec 8)} :
    Accepted devQemu pre ↔ LinesFit devQemu (pre ++ [newline]) := by
  have h := Tracks.receiveAll devQemu pre
  rw [Accepted, linesFit_concat]
  rcases Nat.lt_or_ge (receiveAll devQemu zero pre).rxPos shellBufferSize with hroom | hfull
  · obtain ⟨hfit, hshort, hholds⟩ := h.of_room hroom
    refine iff_of_true ?_ ⟨hfit, fun _ => hshort⟩
    exact ⟨_, _, List.prefix_rfl, hholds.shellReceiveChar_end (Or.inl rfl) hshort⟩
  · refine iff_of_false ?_ fun ⟨hfit, hlast⟩ =>
      Nat.not_lt_of_le (h.of_full hfull hfit) (hlast (Or.inl rfl))
    rintro ⟨kept, call, -, hreceived⟩
    rw [shellReceiveChar_of_full hfull] at hreceived
    exact ShellEvent.noConfusion (congrArg Prod.snd hreceived)

/-- Every newline is accepted exactly when up to the last newline every line
that ends has had room in the buffer. -/
theorem accepted_iff (devQemu : Bool) (cs : List (BitVec 8)) :
    (∀ pre, pre ++ [newline] <+: cs → Accepted devQemu pre) ↔
      ∀ pre, pre ++ [newline] <+: cs → LinesFit devQemu (pre ++ [newline]) :=
  forall_congr' fun _ => imp_congr_right fun _ => accepted_iff_linesFit

/-- A line of 128 characters locks the shell up. -/
theorem not_accepted_long :
    ¬∀ pre, pre ++ [newline] <+: List.replicate 128 space ++ [newline] → Accepted false pre := by
  intro h
  have haccepted := h _ List.prefix_rfl
  have hfit := (linesFit_concat.mp (accepted_iff_linesFit.mp haccepted)).2 (Or.inl rfl)
  rw [currentLine_of_forall, List.length_replicate] at hfit
  · exact Nat.lt_irrefl 128 hfit
  · intro c hc
    rw [List.eq_of_mem_replicate hc]
    decide

end RapidPatch.App
