import RapidPatch.Patches.TcpOptions
import RapidPatch.Support.Truncation
import RapidPatch.Vm.Checker

/-!
The shipped bytecode of the TCP option filter.

There are two programs, for two systems, which differ in the order of their
blocks. Each block is verified once, at any place and with any distances
(`TcpFrame` says where the blocks of a program are). One turn of `filter` is a
path from the test of the option's kind back to it.

Both programs return what `filter` does on every memory (`tcp_exec`). No list
of options is too long for the budget: the header has 40 bytes for them.
-/

namespace RapidPatch.Patches

open RapidPatch.Support RapidPatch.Hotpatch RapidPatch.Vm

/-! ### The programs -/

/-- `freertos_cve_2018_16524.bin`. -/
def freertosCve16524 : List (BitVec 8) :=
  [0xb7, 0x00, 0x00, 0x00, 0x00, 0x00, 0x00, 0x00, 0x61, 0x11, 0x04, 0x00, 0x00, 0x00, 0x00, 0x00,
   0x71, 0x11, 0x18, 0x00, 0x00, 0x00, 0x00, 0x00, 0x71, 0x12, 0x2e, 0x00, 0x00, 0x00, 0x00, 0x00,
   0xb7, 0x03, 0x00, 0x00, 0x60, 0x00, 0x00, 0x00, 0x2d, 0x23, 0x26, 0x00, 0x00, 0x00, 0x00, 0x00,
   0x77, 0x02, 0x00, 0x00, 0x02, 0x00, 0x00, 0x00, 0x57, 0x02, 0x00, 0x00, 0x3c, 0x00, 0x00, 0x00,
   0x0f, 0x12, 0x00, 0x00, 0x00, 0x00, 0x00, 0x00, 0x07, 0x02, 0x00, 0x00, 0x22, 0x00, 0x00, 0x00,
   0x07, 0x01, 0x00, 0x00, 0x36, 0x00, 0x00, 0x00, 0x71, 0x13, 0x00, 0x00, 0x00, 0x00, 0x00, 0x00,
   0x65, 0x03, 0x03, 0x00, 0x01, 0x00, 0x00, 0x00, 0x15, 0x03, 0x06, 0x00, 0x01, 0x00, 0x00, 0x00,
   0x15, 0x03, 0x1d, 0x00, 0x00, 0x00, 0x00, 0x00, 0x05, 0x00, 0x02, 0x00, 0x00, 0x00, 0x00, 0x00,
   0x15, 0x03, 0x0b, 0x00, 0x02, 0x00, 0x00, 0x00, 0x15, 0x03, 0x05, 0x00, 0x03, 0x00, 0x00, 0x00,
   0x71, 0x13, 0x01, 0x00, 0x00, 0x00, 0x00, 0x00, 0x05, 0x00, 0x13, 0x00, 0x00, 0x00, 0x00, 0x00,
   0x07, 0x01, 0x00, 0x00, 0x01, 0x00, 0x00, 0x00, 0x2d, 0x12, 0xf5, 0xff, 0x00, 0x00, 0x00, 0x00,
   0x05, 0x00, 0x15, 0x00, 0x00, 0x00, 0x00, 0x00, 0x71, 0x13, 0x01, 0x00, 0x00, 0x00, 0x00, 0x00,
   0x55, 0x03, 0x0e, 0x00, 0x03, 0x00, 0x00, 0x00, 0x07, 0x01, 0x00, 0x00, 0x03, 0x00, 0x00, 0x00,
   0x2d, 0x12, 0xf0, 0xff, 0x00, 0x00, 0x00, 0x00, 0x05, 0x00, 0x10, 0x00, 0x00, 0x00, 0x00, 0x00,
   0x71, 0x13, 0x01, 0x00, 0x00, 0x00, 0x00, 0x00, 0x55, 0x03, 0x09, 0x00, 0x04, 0x00, 0x00, 0x00,
   0x71, 0x12, 0x03, 0x00, 0x00, 0x00, 0x00, 0x00, 0x71, 0x11, 0x02, 0x00, 0x00, 0x00, 0x00, 0x00,
   0x67, 0x01, 0x00, 0x00, 0x08, 0x00, 0x00, 0x00, 0x4f, 0x21, 0x00, 0x00, 0x00, 0x00, 0x00, 0x00,
   0x57, 0x01, 0x00, 0x00, 0xff, 0xff, 0x00, 0x00, 0xb7, 0x00, 0x00, 0x00, 0x01, 0x00, 0x00, 0x00,
   0x15, 0x01, 0x06, 0x00, 0x00, 0x00, 0x00, 0x00, 0xb7, 0x00, 0x00, 0x00, 0x00, 0x00, 0x00, 0x00,
   0x05, 0x00, 0x04, 0x00, 0x00, 0x00, 0x00, 0x00, 0x0f, 0x31, 0x00, 0x00, 0x00, 0x00, 0x00, 0x00,
   0x15, 0x03, 0x03, 0x00, 0x00, 0x00, 0x00, 0x00, 0x2d, 0x12, 0xe1, 0xff, 0x00, 0x00, 0x00, 0x00,
   0x05, 0x00, 0x01, 0x00, 0x00, 0x00, 0x00, 0x00, 0x67, 0x00, 0x00, 0x00, 0x20, 0x00, 0x00, 0x00,
   0x95, 0x00, 0x00, 0x00, 0x00, 0x00, 0x00, 0x00]

/-- `zephyr_cve_2018_16524.bin`. -/
def zephyrCve16524 : List (BitVec 8) :=
  [0xb7, 0x00, 0x00, 0x00, 0x00, 0x00, 0x00, 0x00, 0x61, 0x11, 0x04, 0x00, 0x00, 0x00, 0x00, 0x00,
   0x71, 0x11, 0x18, 0x00, 0x00, 0x00, 0x00, 0x00, 0x71, 0x12, 0x2e, 0x00, 0x00, 0x00, 0x00, 0x00,
   0xb7, 0x03, 0x00, 0x00, 0x60, 0x00, 0x00, 0x00, 0x2d, 0x23, 0x24, 0x00, 0x00, 0x00, 0x00, 0x00,
   0x77, 0x02, 0x00, 0x00, 0x02, 0x00, 0x00, 0x00, 0x57, 0x02, 0x00, 0x00, 0x3c, 0x00, 0x00, 0x00,
   0x0f, 0x12, 0x00, 0x00, 0x00, 0x00, 0x00, 0x00, 0x07, 0x02, 0x00, 0x00, 0x22, 0x00, 0x00, 0x00,
   0x07, 0x01, 0x00, 0x00, 0x36, 0x00, 0x00, 0x00, 0x71, 0x13, 0x00, 0x00, 0x00, 0x00, 0x00, 0x00,
   0x65, 0x03, 0x03, 0x00, 0x01, 0x00, 0x00, 0x00, 0x15, 0x03, 0x09, 0x00, 0x01, 0x00, 0x00, 0x00,
   0x15, 0x03, 0x1b, 0x00, 0x00, 0x00, 0x00, 0x00, 0x05, 0x00, 0x02, 0x00, 0x00, 0x00, 0x00, 0x00,
   0x15, 0x03, 0x0e, 0x00, 0x02, 0x00, 0x00, 0x00, 0x15, 0x03, 0x08, 0x00, 0x03, 0x00, 0x00, 0x00,
   0x71, 0x13, 0x01, 0x00, 0x00, 0x00, 0x00, 0x00, 0x0f, 0x31, 0x00, 0x00, 0x00, 0x00, 0x00, 0x00,
   0x15, 0x03, 0x15, 0x00, 0x00, 0x00, 0x00, 0x00, 0x2d, 0x12, 0xf5, 0xff, 0x00, 0x00, 0x00, 0x00,
   0x05, 0x00, 0x13, 0x00, 0x00, 0x00, 0x00, 0x00, 0x07, 0x01, 0x00, 0x00, 0x01, 0x00, 0x00, 0x00,
   0x2d, 0x12, 0xf2, 0xff, 0x00, 0x00, 0x00, 0x00, 0x05, 0x00, 0x10, 0x00, 0x00, 0x00, 0x00, 0x00,
   0x71, 0x13, 0x01, 0x00, 0x00, 0x00, 0x00, 0x00, 0x55, 0x03, 0xf7, 0xff, 0x03, 0x00, 0x00, 0x00,
   0x07, 0x01, 0x00, 0x00, 0x03, 0x00, 0x00, 0x00, 0x2d, 0x12, 0xed, 0xff, 0x00, 0x00, 0x00, 0x00,
   0x05, 0x00, 0x0b, 0x00, 0x00, 0x00, 0x00, 0x00, 0x71, 0x13, 0x01, 0x00, 0x00, 0x00, 0x00, 0x00,
   0x55, 0x03, 0xf2, 0xff, 0x04, 0x00, 0x00, 0x00, 0x71, 0x12, 0x03, 0x00, 0x00, 0x00, 0x00, 0x00,
   0x71, 0x11, 0x02, 0x00, 0x00, 0x00, 0x00, 0x00, 0x67, 0x01, 0x00, 0x00, 0x08, 0x00, 0x00, 0x00,
   0x4f, 0x21, 0x00, 0x00, 0x00, 0x00, 0x00, 0x00, 0x57, 0x01, 0x00, 0x00, 0xff, 0xff, 0x00, 0x00,
   0xb7, 0x00, 0x00, 0x00, 0x01, 0x00, 0x00, 0x00, 0x15, 0x01, 0x01, 0x00, 0x00, 0x00, 0x00, 0x00,
   0xb7, 0x00, 0x00, 0x00, 0x00, 0x00, 0x00, 0x00, 0x67, 0x00, 0x00, 0x00, 0x20, 0x00, 0x00, 0x00,
   0x95, 0x00, 0x00, 0x00, 0x00, 0x00, 0x00, 0x00]

/-- The start of both: the pointers of the walk, or the end if the header has no
options. -/
def tcpStart (out : ℕ) : List Inst :=
  [aluImm .mov 0 0, load .w 1 1 4, load .b 1 1 24, load .b 2 1 46, aluImm .mov 3 0x60,
   branchReg .jgt 3 2 (offsetTo 5 out), aluImm .rsh 2 2, aluImm .and 2 0x3c, aluReg .add 2 1,
   aluImm .add 2 0x22, aluImm .add 1 0x36]

/-- The test of the kind. What is none of the four goes on behind it. -/
def tcpKind (base noop ws mss out : ℕ) : List Inst :=
  [load .b 3 1 0, branchImm .jsgt 3 1 (offsetTo (base + 1) (base + 5)),
   branchImm .jeq 3 1 (offsetTo (base + 2) noop), branchImm .jeq 3 0 (offsetTo (base + 3) out),
   jumpAlways (offsetTo (base + 4) (base + 7)), branchImm .jeq 3 2 (offsetTo (base + 5) mss),
   branchImm .jeq 3 3 (offsetTo (base + 6) ws)]

/-- Back to the test of the kind, if the end is not reached. -/
def tcpMore (base kind out : ℕ) : List Inst :=
  [branchReg .jgt 2 1 (offsetTo base kind), jumpAlways (offsetTo (base + 1) out)]

def tcpNoop (base kind out : ℕ) : List Inst := aluImm .add 1 1 :: tcpMore (base + 1) kind out

/-- A window scale of three bytes. One of another length is skipped. -/
def tcpWsopt (base kind skip out : ℕ) : List Inst :=
  [load .b 3 1 1, branchImm .jne 3 3 (offsetTo (base + 1) skip), aluImm .add 1 3] ++
    tcpMore (base + 3) kind out

def tcpMss (base skip : ℕ) : List Inst :=
  [load .b 3 1 1, branchImm .jne 3 4 (offsetTo (base + 1) skip), load .b 2 1 3, load .b 1 1 2,
   aluImm .lsh 1 8, aluReg .or 1 2, aluImm .and 1 0xffff, aluImm .mov 0 1]

/-- The option is skipped by the length in r3. -/
def tcpSkip (base kind out : ℕ) : List Inst :=
  [aluReg .add 1 3, branchImm .jeq 3 0 (offsetTo (base + 1) out)] ++ tcpMore (base + 2) kind out

def freertosTcpListing : List Inst :=
  tcpStart 44 ++ tcpKind 11 20 23 28 44 ++ [load .b 3 1 1, jumpAlways (offsetTo 19 39)] ++
    tcpNoop 20 11 44 ++ tcpWsopt 23 11 39 44 ++ tcpMss 28 39 ++
    [branchImm .jeq 1 0 (offsetTo 36 43), aluImm .mov 0 0, jumpAlways (offsetTo 38 43)] ++
    tcpSkip 39 11 44 ++ [aluImm .lsh 0 0x20, exitInst]

def zephyrTcpListing : List Inst :=
  tcpStart 42 ++ tcpKind 11 23 26 31 42 ++ [load .b 3 1 1] ++ tcpSkip 19 11 42 ++
    tcpNoop 23 11 42 ++ tcpWsopt 26 11 19 42 ++ tcpMss 31 19 ++
    [branchImm .jeq 1 0 (offsetTo 39 41), aluImm .mov 0 0, aluImm .lsh 0 0x20, exitInst]

theorem disassemble_freertosTcp : disassemble freertosCve16524 = freertosTcpListing := rfl

theorem disassemble_zephyrTcp : disassemble zephyrCve16524 = zephyrTcpListing := rfl

/-! ### The blocks -/

section Blocks

variable {mem : Mem} {last p n base kind noop ws mss skip out : ℕ} {s : State} {c : Call}

/-- r1 is `pucPtr` and r2 is `pucLast`, and nothing was found yet. -/
structure TcpAt (mem : Mem) (last p : ℕ) (s : State) : Prop where
  mem : s.mem = mem
  result : s.reg 0 = 0
  ptr : s.reg 1 = BitVec.ofNat 64 p
  last : s.reg 2 = BitVec.ofNat 64 last

structure TcpWalk (mem : Mem) (last kind out p : ℕ) (s : State) : Prop where
  bound : p < 2 ^ 32
  more : p < last → s.pc = BitVec.ofNat 16 kind ∧ TcpAt mem last p s
  done : ¬p < last → s.pc = BitVec.ofNat 16 out ∧ s.reg 0 = 0

theorem TcpAt.at (h : TcpAt mem last p s) (pc : BitVec 16) :
    TcpAt mem last p { s with pc := pc } := ⟨h.mem, h.result, h.ptr, h.last⟩

/-- The block's state is the one behind the loop's test. -/
theorem tcp_more (h : Runs base (tcpMore base kind out) c) (hs : TcpAt mem last p s)
    (hpc : s.pc = BitVec.ofNat 16 (base + 0)) (hp : p < 2 ^ 32) (hlast : last < 2 ^ 32) :
    Within (turn c) 2 s (TcpWalk mem last kind out p) := by
  have hcond : jmpTaken .jgt .reg (s.reg 2) (s.reg 1) 0 = decide (p < last) :=
    jmpTaken_jgt_reg hs.last hs.ptr (by omega) (by omega)
  by_cases hlt : p < last
  · have hwalk : TcpWalk mem last kind out p { s with pc := BitVec.ofNat 16 kind } :=
      ⟨hp, fun _ => ⟨rfl, hs.at _⟩, fun hge => absurd hlt hge⟩
    exact .head (h.taken 0 kind hpc rfl rfl rfl (hcond.trans (decide_eq_true hlt))) (.refl hwalk)
  · have hwalk : TcpWalk mem last kind out p { s with pc := BitVec.ofNat 16 out } :=
      ⟨hp, fun hlt' => absurd hlt' hlt, fun _ => ⟨rfl, hs.result⟩⟩
    exact .head (h.falls 0 hpc rfl rfl (hcond.trans (decide_eq_false hlt)))
      (.head (h.jump 1 out rfl rfl rfl) (.refl hwalk))

theorem TcpAt.byte (hs : TcpAt mem last p s) (k : ℕ) :
    BitVec.ofNat 64 (loadLE s.mem ((s.reg 1 + BitVec.ofNat 64 k).setWidth 32) Size.b.bytes) =
      BitVec.ofNat 64 (byteAt mem (p + k)).toNat := by
  rw [ofNat_loadLE_at _ hs.ptr, hs.mem]
  rfl

def tcpTarget (kind noop ws mss out : ℕ) (b : BitVec 8) : ℕ :=
  if b = tcpOptEnd then out
  else if b = tcpOptNoop then noop
  else if b = tcpOptMss then mss
  else if b = tcpOptWsopt then ws
  else kind + 7

theorem tcpTarget_eq (kind noop ws mss out : ℕ) (b : BitVec 8) :
    tcpTarget kind noop ws mss out b =
      if b.toNat = 0 then out else if b.toNat = 1 then noop else if b.toNat = 2 then mss
      else if b.toNat = 3 then ws else kind + 7 := by
  have hkind (k : BitVec 8) : b = k ↔ b.toNat = k.toNat := BitVec.toNat_inj.symm
  simp only [tcpTarget, hkind]
  rfl

theorem tcp_dispatch (h : Runs kind (tcpKind kind noop ws mss out) c) {b : BitVec 8}
    (hb : s.reg 3 = BitVec.ofNat 64 b.toNat) (hpc : s.pc = BitVec.ofNat 16 (kind + 1)) :
    Within (turn c) 4 s fun t =>
      t = { s with pc := BitVec.ofNat 16 (tcpTarget kind noop ws mss out b) } := by
  have hlt := b.isLt
  have hsgt : jmpTaken .jsgt .imm (s.reg 3) (s.reg 0) 1 = decide (1 < b.toNat) :=
    jmpTaken_jsgt_imm hb (by omega) (by decide)
  have hjeq (k : ℕ) (hk : k < 2 ^ 31) :
      jmpTaken .jeq .imm (s.reg 3) (s.reg 0) (BitVec.ofNat 32 k) = decide (b.toNat = k) :=
    jmpTaken_jeq_imm hb (by omega) hk
  rw [tcpTarget_eq]
  by_cases hone : 1 < b.toNat
  · rw [if_neg (by omega), if_neg (by omega)]
    refine .head (h.taken 1 (kind + 5) hpc rfl rfl rfl (hsgt.trans (decide_eq_true hone))) ?_
    by_cases hmss : b.toNat = 2
    · rw [if_pos hmss]
      exact .head (h.taken 5 mss rfl rfl rfl rfl
        ((hjeq 2 (by decide)).trans (decide_eq_true hmss))) (.refl rfl)
    rw [if_neg hmss]
    refine .head (h.falls 5 rfl rfl rfl ((hjeq 2 (by decide)).trans (decide_eq_false hmss))) ?_
    by_cases hws : b.toNat = 3
    · rw [if_pos hws]
      exact .head (h.taken 6 ws rfl rfl rfl rfl
        ((hjeq 3 (by decide)).trans (decide_eq_true hws))) (.refl rfl)
    · rw [if_neg hws]
      exact .head (h.falls 6 rfl rfl rfl
        ((hjeq 3 (by decide)).trans (decide_eq_false hws))) (.refl rfl)
  · refine .head (h.falls 1 hpc rfl rfl (hsgt.trans (decide_eq_false hone))) ?_
    by_cases hend : b.toNat = 0
    · rw [if_pos hend]
      refine .head (h.falls 2 rfl rfl rfl
        ((hjeq 1 (by decide)).trans (decide_eq_false (by omega)))) ?_
      exact .head (h.taken 3 out rfl rfl rfl rfl
        ((hjeq 0 (by decide)).trans (decide_eq_true hend))) (.refl rfl)
    · have hnoop : b.toNat = 1 := by omega
      rw [if_neg hend, if_pos hnoop]
      exact .head (h.taken 2 noop rfl rfl rfl rfl
        ((hjeq 1 (by decide)).trans (decide_eq_true hnoop))) (.refl rfl)

theorem tcp_kind (h : Runs kind (tcpKind kind noop ws mss out) c) (hs : TcpAt mem last p s)
    (hpc : s.pc = BitVec.ofNat 16 (kind + 0)) :
    Within (turn c) 5 s fun t =>
      t.pc = BitVec.ofNat 16 (tcpTarget kind noop ws mss out (byteAt mem p)) ∧
        TcpAt mem last p t := by
  have hload : After (turn c) 1 s fun t => t.pc = BitVec.ofNat 16 (kind + 1) ∧ t.mem = s.mem ∧
      t.reg 0 = s.reg 0 ∧ t.reg 1 = s.reg 1 ∧ t.reg 2 = s.reg 2 ∧ t.reg 3 =
        BitVec.ofNat 64 (loadLE s.mem ((s.reg 1 + BitVec.ofNat 64 0).setWidth 32) Size.b.bytes) :=
    h.block 0 1 hpc rfl rfl rfl ⟨rfl, rfl, rfl, rfl, rfl, rfl⟩
  refine hload.seqWithin (n := 4) ?_
  rintro t ⟨htpc, hmem, h0, h1, h2, h3⟩
  have hat : TcpAt mem last p t :=
    ⟨hmem.trans hs.mem, h0.trans hs.result, h1.trans hs.ptr, h2.trans hs.last⟩
  refine (tcp_dispatch h (h3.trans (hs.byte 0)) htpc).mono ?_
  rintro _ rfl
  exact ⟨rfl, hat.at _⟩

theorem TcpAt.advance {t : State} {x : BitVec 64} (hs : TcpAt mem last p s) (hmem : t.mem = s.mem)
    (h0 : t.reg 0 = s.reg 0) (h1 : t.reg 1 = s.reg 1 + x) (h2 : t.reg 2 = s.reg 2)
    (hx : x = BitVec.ofNat 64 n) : TcpAt mem last (p + n) t :=
  ⟨hmem.trans hs.mem, h0.trans hs.result, by rw [h1, hs.ptr, hx, BitVec.ofNat_add],
    h2.trans hs.last⟩

theorem tcp_noop (h : Runs noop (tcpNoop noop kind out) c) (hs : TcpAt mem last p s)
    (hpc : s.pc = BitVec.ofNat 16 (noop + 0)) (hp : p + 1 < 2 ^ 32) (hlast : last < 2 ^ 32) :
    Within (turn c) 3 s (TcpWalk mem last kind out (p + 1)) := by
  have hadd : After (turn c) 1 s fun t => t.pc = BitVec.ofNat 16 (noop + 1) ∧ t.mem = s.mem ∧
      t.reg 0 = s.reg 0 ∧ t.reg 1 = s.reg 1 + 1 ∧ t.reg 2 = s.reg 2 :=
    h.block 0 1 hpc rfl rfl rfl ⟨rfl, rfl, rfl, rfl, rfl⟩
  refine hadd.seqWithin (n := 2) ?_
  rintro t ⟨htpc, hmem, h0, h1, h2⟩
  have hmore : Runs (noop + 1) (tcpMore (noop + 1) kind out) c := h.slice 1 2 rfl rfl
  exact tcp_more hmore (hs.advance hmem h0 h1 h2 rfl) htpc hp hlast

/-- The length of the option is in r3. -/
structure TcpLen (m : Mem) (last p : ℕ) (s : State) : Prop extends TcpAt m last p s where
  len : s.reg 3 = BitVec.ofNat 64 (byteAt m (p + 1)).toNat

theorem TcpAt.load {t : State} (hs : TcpAt mem last p s) (hmem : t.mem = s.mem)
    (h0 : t.reg 0 = s.reg 0) (h1 : t.reg 1 = s.reg 1) (h2 : t.reg 2 = s.reg 2)
    (h3 : t.reg 3 =
      BitVec.ofNat 64 (loadLE s.mem ((s.reg 1 + BitVec.ofNat 64 1).setWidth 32) Size.b.bytes)) :
    TcpLen mem last p t where
  mem := hmem.trans hs.mem
  result := h0.trans hs.result
  ptr := h1.trans hs.ptr
  last := h2.trans hs.last
  len := h3.trans (hs.byte 1)

theorem tcp_wsopt (h : Runs ws (tcpWsopt ws kind skip out) c) (hs : TcpAt mem last p s)
    (hpc : s.pc = BitVec.ofNat 16 (ws + 0)) (hp : p + 3 < 2 ^ 32) (hlast : last < 2 ^ 32) :
    ((byteAt mem (p + 1)).toNat = tcpOptWsoptLen →
      Within (turn c) 5 s (TcpWalk mem last kind out (p + 3))) ∧
      ((byteAt mem (p + 1)).toNat ≠ tcpOptWsoptLen →
        Within (turn c) 2 s fun t => t.pc = BitVec.ofNat 16 skip ∧ TcpLen mem last p t) := by
  have hload : After (turn c) 1 s fun t => t.pc = BitVec.ofNat 16 (ws + 1) ∧
      TcpLen mem last p t :=
    h.block 0 1 hpc rfl rfl rfl ⟨rfl, hs.load rfl rfl rfl rfl rfl⟩
  have hbyte := (byteAt mem (p + 1)).isLt
  have hcond (t : State) (ht : TcpLen mem last p t) :
      jmpTaken .jne .imm (t.reg 3) (t.reg 0) 3 =
        decide ((byteAt mem (p + 1)).toNat ≠ tcpOptWsoptLen) :=
    jmpTaken_jne_imm ht.len (by omega) (by decide)
  constructor
  · intro hlen
    refine hload.seqWithin (n := 4) ?_
    rintro t ⟨htpc, ht⟩
    have hfalls := (hcond t ht).trans (decide_eq_false (not_not.mpr hlen))
    have hadd : After (turn c) 2 t fun v => v.pc = BitVec.ofNat 16 (ws + 3) ∧
        TcpAt mem last (p + 3) v :=
      .head (h.falls 1 htpc rfl rfl hfalls) (h.block 2 1 rfl rfl rfl rfl
        ⟨rfl, ht.toTcpAt.advance rfl rfl rfl rfl rfl⟩)
    refine hadd.seqWithin (n := 2) ?_
    rintro v ⟨hvpc, hv⟩
    have hmore : Runs (ws + 3) (tcpMore (ws + 3) kind out) c := h.slice 3 2 rfl rfl
    exact tcp_more hmore hv hvpc hp hlast
  · intro hlen
    refine hload.seqWithin (n := 1) ?_
    rintro t ⟨htpc, ht⟩
    have htaken := (hcond t ht).trans (decide_eq_true hlen)
    exact .head (h.taken 1 skip htpc rfl rfl rfl htaken) (.refl ⟨rfl, ht.toTcpAt.at _, ht.len⟩)

theorem usChar2u16_register (a b : BitVec 8) :
    (BitVec.ofNat 64 a.toNat <<< 8 ||| BitVec.ofNat 64 b.toNat) &&& 0xffff =
      (((a.setWidth 32 <<< 8) ||| b.setWidth 32).setWidth 16).setWidth 64 := by
  refine (and_mask _ 16).trans (congrArg _ ?_)
  rw [BitVec.ofNat_toNat, BitVec.ofNat_toNat]
  refine BitVec.eq_of_getLsbD_eq fun i hi => ?_
  simp only [BitVec.getLsbD_setWidth, BitVec.getLsbD_or, BitVec.getLsbD_shiftLeft]
  simp [show i < 64 by omega, show i < 32 by omega, show i - 8 < 64 by omega,
    show i - 8 < 32 by omega]

theorem tcp_mss (h : Runs mss (tcpMss mss skip) c) (hs : TcpAt mem last p s)
    (hpc : s.pc = BitVec.ofNat 16 (mss + 0)) :
    ((byteAt mem (p + 1)).toNat = tcpOptMssLen →
      Within (turn c) 8 s fun t => t.pc = BitVec.ofNat 16 (mss + 8) ∧ t.reg 0 = 1 ∧
        t.reg 1 = (usChar2u16 mem (p + 2)).setWidth 64) ∧
      ((byteAt mem (p + 1)).toNat ≠ tcpOptMssLen →
        Within (turn c) 2 s fun t => t.pc = BitVec.ofNat 16 skip ∧ TcpLen mem last p t) := by
  have hload : After (turn c) 1 s fun t => t.pc = BitVec.ofNat 16 (mss + 1) ∧
      TcpLen mem last p t :=
    h.block 0 1 hpc rfl rfl rfl ⟨rfl, hs.load rfl rfl rfl rfl rfl⟩
  have hbyte := (byteAt mem (p + 1)).isLt
  have hcond (t : State) (ht : TcpLen mem last p t) :
      jmpTaken .jne .imm (t.reg 3) (t.reg 0) 4 =
        decide ((byteAt mem (p + 1)).toNat ≠ tcpOptMssLen) :=
    jmpTaken_jne_imm ht.len (by omega) (by decide)
  constructor
  · intro hlen
    refine hload.seqWithin (n := 7) ?_
    rintro t ⟨htpc, ht⟩
    have hfalls := (hcond t ht).trans (decide_eq_false (not_not.mpr hlen))
    have hvalue : After (turn c) 7 t fun v => v.pc = BitVec.ofNat 16 (mss + 8) ∧ v.reg 0 = 1 ∧
        v.reg 1 = (BitVec.ofNat 64 (loadLE t.mem ((t.reg 1 + BitVec.ofNat 64 2).setWidth 32)
          Size.b.bytes) <<< 8 ||| BitVec.ofNat 64 (loadLE t.mem
            ((t.reg 1 + BitVec.ofNat 64 3).setWidth 32) Size.b.bytes)) &&& 0xffff :=
      .head (h.falls 1 htpc rfl rfl hfalls) (h.block 2 6 rfl rfl rfl rfl ⟨rfl, rfl, rfl⟩)
    refine (hvalue.within (Nat.le_refl 7)).mono ?_
    rintro v ⟨hvpc, h0, h1⟩
    refine ⟨hvpc, h0, ?_⟩
    rw [h1, ht.toTcpAt.byte 2, ht.toTcpAt.byte 3]
    exact usChar2u16_register _ _
  · intro hlen
    refine hload.seqWithin (n := 1) ?_
    rintro t ⟨htpc, ht⟩
    have htaken := (hcond t ht).trans (decide_eq_true hlen)
    exact .head (h.taken 1 skip htpc rfl rfl rfl htaken) (.refl ⟨rfl, ht.toTcpAt.at _, ht.len⟩)

/-- An option without a length ends the walk. -/
theorem tcp_skip (h : Runs skip (tcpSkip skip kind out) c) (hs : TcpLen mem last p s)
    (hpc : s.pc = BitVec.ofNat 16 (skip + 0)) (hp : p + 256 < 2 ^ 32) (hlast : last < 2 ^ 32) :
    ((byteAt mem (p + 1)).toNat = 0 →
      Within (turn c) 4 s fun t => t.pc = BitVec.ofNat 16 out ∧ t.reg 0 = 0) ∧
      ((byteAt mem (p + 1)).toNat ≠ 0 →
        Within (turn c) 4 s (TcpWalk mem last kind out (p + (byteAt mem (p + 1)).toNat))) := by
  have hbyte := (byteAt mem (p + 1)).isLt
  have hadd : After (turn c) 1 s fun t => t.pc = BitVec.ofNat 16 (skip + 1) ∧
      TcpAt mem last (p + (byteAt mem (p + 1)).toNat) t ∧ t.reg 3 = s.reg 3 :=
    h.block 0 1 hpc rfl rfl rfl ⟨rfl, hs.toTcpAt.advance rfl rfl rfl rfl hs.len, rfl⟩
  have hcond (t : State) (h3 : t.reg 3 = s.reg 3) :
      jmpTaken .jeq .imm (t.reg 3) (t.reg 0) 0 = decide ((byteAt mem (p + 1)).toNat = 0) :=
    jmpTaken_jeq_imm (h3.trans hs.len) (by omega) (by decide)
  constructor
  · intro hlen
    refine hadd.seqWithin (n := 3) ?_
    rintro t ⟨htpc, ht, h3⟩
    have htaken := (hcond t h3).trans (decide_eq_true hlen)
    exact .head (h.taken 1 out htpc rfl rfl rfl htaken) (.refl ⟨rfl, ht.result⟩)
  · intro hlen
    refine hadd.seqWithin (n := 3) ?_
    rintro t ⟨htpc, ht, h3⟩
    have hfalls := (hcond t h3).trans (decide_eq_false hlen)
    have hmore : Runs (skip + 2) (tcpMore (skip + 2) kind out) c := h.slice 2 2 rfl rfl
    exact .head (h.falls 1 htpc rfl rfl hfalls) (tcp_more hmore (ht.at _) rfl (by omega) hlast)

end Blocks

/-! ### The loop -/

/-- Where the blocks of a program are, and what stands between them. -/
structure TcpFrame (c : Call) (noop ws mss skip out : ℕ) : Prop where
  startCode : Runs 0 (tcpStart out) c
  kindCode : Runs 11 (tcpKind 11 noop ws mss out) c
  noopCode : Runs noop (tcpNoop noop 11 out) c
  wsCode : Runs ws (tcpWsopt ws 11 skip out) c
  mssCode : Runs mss (tcpMss mss skip) c
  skipCode : Runs skip (tcpSkip skip 11 out) c
  other : ∀ s, s.pc = BitVec.ofNat 16 18 → Within (turn c) 2 s fun t =>
    t.pc = BitVec.ofNat 16 skip ∧ t.mem = s.mem ∧ t.reg 0 = s.reg 0 ∧ t.reg 1 = s.reg 1 ∧
      t.reg 2 = s.reg 2 ∧ t.reg 3 =
        BitVec.ofNat 64 (loadLE s.mem ((s.reg 1 + BitVec.ofNat 64 1).setWidth 32) Size.b.bytes)
  verdict : ∀ s, s.pc = BitVec.ofNat 16 (mss + 8) → Within (turn c) 4 s fun t =>
    t.pc = BitVec.ofNat 16 out ∧ t.reg 0 = if s.reg 1 = 0 then s.reg 0 <<< 32 else 0
  exit : ∀ s, s.pc = BitVec.ofNat 16 out → turn c s = .stop (.returned .exit (s.reg 0))

section Loop

variable {mem : Mem} {last p noop ws mss skip out : ℕ} {s : State} {c : Call}

/-- The last case of the filter's loop. -/
def tcpSkipStep (mem : Mem) (p : ℕ) : Next ℕ (BitVec 64) :=
  if (byteAt mem (p + 1)).toNat = 0 then .stop (setReturn 0 0)
  else .cont (p + (byteAt mem (p + 1)).toNat)

/-- The filter's loop in the order in which the programs test the kind. -/
theorem tcpFilterStep_kinds (hlt : p < last) :
    tcpFilterStep mem last p =
      if byteAt mem p = tcpOptEnd then .stop (setReturn 0 0)
      else if byteAt mem p = tcpOptNoop then .cont (p + 1)
      else if byteAt mem p = tcpOptMss then
        if (byteAt mem (p + 1)).toNat = tcpOptMssLen then
          if usChar2u16 mem (p + 2) = 0 then .stop (setReturn 1 0) else .stop (setReturn 0 0)
        else tcpSkipStep mem p
      else if byteAt mem p = tcpOptWsopt then
        if (byteAt mem (p + 1)).toNat = tcpOptWsoptLen then .cont (p + tcpOptWsoptLen)
        else tcpSkipStep mem p
      else tcpSkipStep mem p := by
  rw [tcpFilterStep, if_neg (not_not.mpr hlt)]
  split
  · rfl
  split
  · rfl
  by_cases hmss : byteAt mem p = tcpOptMss
  · have hws : byteAt mem p ≠ tcpOptWsopt := by
      rw [hmss]
      decide
    simp only [hmss, if_neg (fun h : _ ∧ _ => hws (hmss.trans h.1)), true_and, if_true]
    rfl
  · simp only [hmss, false_and, if_false]
    by_cases hws : byteAt mem p = tcpOptWsopt
    · simp only [hws, true_and, if_true]
      rfl
    · simp only [hws, false_and, if_false]
      rfl

/-- The program is where a turn of the filter leads. -/
def TcpNext (mem : Mem) (last out : ℕ) (c : Call) : Next ℕ (BitVec 64) → State → Prop
  | .cont p, t => TcpWalk mem last 11 out p t
  | .stop ret, t => turn c t = .stop (.returned .exit ret)

/-- The program is where it returns what is in r0. -/
theorem TcpFrame.returns {ret : BitVec 64} (h : TcpFrame c noop ws mss skip out)
    (hpc : s.pc = BitVec.ofNat 16 out) (h0 : s.reg 0 = ret) :
    TcpNext mem last out c (.stop ret) s := by
  rw [← h0]
  exact h.exit s hpc

theorem TcpFrame.skipped (h : TcpFrame c noop ws mss skip out) (hs : TcpLen mem last p s)
    (hpc : s.pc = BitVec.ofNat 16 skip) (hp : p + 256 < 2 ^ 32) (hlast : last < 2 ^ 32) :
    Within (turn c) 4 s (TcpNext mem last out c (tcpSkipStep mem p)) := by
  obtain ⟨hzero, hmore⟩ := tcp_skip h.skipCode hs hpc hp hlast
  rw [tcpSkipStep]
  by_cases hlen : (byteAt mem (p + 1)).toNat = 0
  · rw [if_pos hlen]
    exact (hzero hlen).mono fun t ht => h.returns ht.1 ht.2
  · rw [if_neg hlen]
    exact hmore hlen

theorem TcpFrame.windowScale (h : TcpFrame c noop ws mss skip out) (hs : TcpAt mem last p s)
    (hpc : s.pc = BitVec.ofNat 16 ws) (hp : p + 256 < 2 ^ 32) (hlast : last < 2 ^ 32) :
    Within (turn c) 6 s (TcpNext mem last out c
      (if (byteAt mem (p + 1)).toNat = tcpOptWsoptLen then .cont (p + tcpOptWsoptLen)
      else tcpSkipStep mem p)) := by
  obtain ⟨hscale, hother⟩ := tcp_wsopt h.wsCode hs hpc (by omega) hlast
  by_cases hlen : (byteAt mem (p + 1)).toNat = tcpOptWsoptLen
  · rw [if_pos hlen]
    exact (hscale hlen).le (by decide)
  · rw [if_neg hlen]
    exact (hother hlen).seq (n := 4) fun t ht => h.skipped ht.2 ht.1 hp hlast

theorem TcpFrame.segmentSize (h : TcpFrame c noop ws mss skip out) (hs : TcpAt mem last p s)
    (hpc : s.pc = BitVec.ofNat 16 mss) (hp : p + 256 < 2 ^ 32) (hlast : last < 2 ^ 32) :
    Within (turn c) 12 s (TcpNext mem last out c
      (if (byteAt mem (p + 1)).toNat = tcpOptMssLen then
        if usChar2u16 mem (p + 2) = 0 then .stop (setReturn 1 0) else .stop (setReturn 0 0)
      else tcpSkipStep mem p)) := by
  obtain ⟨hvalue, hother⟩ := tcp_mss h.mssCode hs hpc
  by_cases hlen : (byteAt mem (p + 1)).toNat = tcpOptMssLen
  · rw [if_pos hlen]
    refine (hvalue hlen).seq (n := 4) ?_
    rintro t ⟨htpc, h0, h1⟩
    have hzero : t.reg 1 = 0 ↔ usChar2u16 mem (p + 2) = 0 := by
      have hlt := (usChar2u16 mem (p + 2)).isLt
      rw [h1, ← BitVec.toNat_inj, ← BitVec.toNat_inj, BitVec.toNat_setWidth]
      show _ % 2 ^ 64 = 0 ↔ _ = 0
      omega
    refine (h.verdict t htpc).mono ?_
    rintro v ⟨hvpc, hv⟩
    by_cases hsize : usChar2u16 mem (p + 2) = 0
    · rw [if_pos hsize]
      refine h.returns hvpc ?_
      rw [hv, if_pos (hzero.mpr hsize), h0]
      rfl
    · rw [if_neg hsize]
      refine h.returns hvpc ?_
      rw [hv, if_neg (fun h' => hsize (hzero.mp h'))]
      rfl
  · rw [if_neg hlen]
    exact ((hother hlen).seq (n := 4) fun t ht => h.skipped ht.2 ht.1 hp hlast).le (by decide)

theorem TcpFrame.next (h : TcpFrame c noop ws mss skip out) (hs : TcpWalk mem last 11 out p s)
    (hp : p + 256 < 2 ^ 32) (hlast : last < 2 ^ 32) :
    Within (turn c) 17 s (TcpNext mem last out c (tcpFilterStep mem last p)) := by
  by_cases hlt : p < last
  · obtain ⟨hpc, hat⟩ := hs.more hlt
    rw [tcpFilterStep_kinds hlt]
    refine (tcp_kind h.kindCode hat hpc).seq (n := 12) ?_
    rintro t ⟨htpc, ht⟩
    rw [tcpTarget] at htpc
    split
    · rename_i hend
      rw [if_pos hend] at htpc
      exact .refl (h.returns htpc ht.result)
    rename_i hend
    rw [if_neg hend] at htpc
    split
    · rename_i hnoop
      rw [if_pos hnoop] at htpc
      exact (tcp_noop h.noopCode ht htpc (by omega) hlast).le (by decide)
    rename_i hnoop
    rw [if_neg hnoop] at htpc
    split
    · rename_i hmss
      rw [if_pos hmss] at htpc
      exact h.segmentSize ht htpc hp hlast
    rename_i hmss
    rw [if_neg hmss] at htpc
    split
    · rename_i hws
      rw [if_pos hws] at htpc
      exact (h.windowScale ht htpc hp hlast).le (by decide)
    rename_i hws
    rw [if_neg hws] at htpc
    refine ((h.other t htpc).seq (n := 4) ?_).le (by decide)
    rintro v ⟨hvpc, hmem, h0, h1, h2, h3⟩
    exact h.skipped (ht.load hmem h0 h1 h2 h3) hvpc hp hlast
  · obtain ⟨hpc, h0⟩ := hs.done hlt
    have hstop : tcpFilterStep mem last p = .stop (setReturn 0 0) := if_pos hlt
    rw [hstop]
    exact .refl (h.returns hpc h0)

/-- The walk goes on by the length of an option, and only before the end. -/
theorem tcpFilterStep_cont {q : ℕ} (h : tcpFilterStep mem last p = .cont q) :
    p < last ∧ p < q ∧ q ≤ p + 255 := by
  have hlt : p < last := by
    by_contra hge
    rw [tcpFilterStep, if_pos hge] at h
    cases h
  have hskip (hstep : tcpSkipStep mem p = .cont q) : p < q ∧ q ≤ p + 255 := by
    have hbyte := (byteAt mem (p + 1)).isLt
    rw [tcpSkipStep] at hstep
    split at hstep
    · cases hstep
    · cases hstep
      omega
  refine ⟨hlt, ?_⟩
  rw [tcpFilterStep_kinds hlt] at h
  split at h
  · cases h
  split at h
  · cases h
    omega
  split at h
  · split at h
    · split at h <;> cases h
    · exact hskip h
  split at h
  · split at h
    · cases h
      simp only [tcpOptWsoptLen]
      omega
    · exact hskip h
  · exact hskip h

/-- There are no more turns than bytes. -/
theorem tcpFilter_turns {k q : ℕ} (h : run (tcpFilterStep mem last) k p = .cont q) :
    k ≤ last - p := by
  induction k generalizing p with
  | zero => exact Nat.zero_le _
  | succ k ih =>
      cases hs : tcpFilterStep mem last p with
      | stop ret =>
          rw [run_succ_stop hs] at h
          cases h
      | cont r =>
          rw [run_succ_cont hs] at h
          obtain ⟨hlt, hr, -⟩ := tcpFilterStep_cont hs
          have hk := ih h
          omega

theorem TcpFrame.implements (h : TcpFrame c noop ws mss skip out) (hlast : last < 2 ^ 16)
    (limit : ℕ) :
    Implements (tcpFilterStep mem last) (turn c)
      (fun _ p s => TcpWalk mem last 11 out p s ∧ p < 2 ^ 17) limit 0 17 17
      (.returned .exit) where
  turn i _ p s q hs hstep := by
    obtain ⟨-, -, hq⟩ := tcpFilterStep_cont hstep
    obtain ⟨hlt, -⟩ := tcpFilterStep_cont hstep
    obtain ⟨n, hn, hnext⟩ := h.next hs.1 (by omega) (by omega)
    rw [hstep] at hnext
    exact ⟨n, Nat.zero_le n, hn, hnext.mono fun t ht => ⟨ht, by omega⟩⟩
  halt i _ p s ret hs hstop := by
    have hp := hs.2
    have hend := h.next hs.1 (by omega) (by omega)
    rwa [hstop] at hend

theorem TcpFrame.walk (h : TcpFrame c noop ws mss skip out) (hs : TcpWalk mem last 11 out p s)
    (hlast : last < 2 ^ 16) (hp : p < 2 ^ 17) (hfew : last - p ≤ 40) :
    ∃ ret, (∃ n, run (tcpFilterStep mem last) n p = .stop ret) ∧
      HaltsWithin (turn c) (17 * 40 + 17) s (.returned .exit ret) := by
  obtain ⟨n, hn⟩ := tcpFilter_run mem last p
  obtain ⟨k, q, -, hk, hstop⟩ := exists_run_of_stop hn
  have hturns := tcpFilter_turns hk
  have hend := (h.implements hlast 40).halts ⟨hs, hp⟩ (hturns.trans hfew) hk hstop
  exact ⟨_, ⟨n, hn⟩, hend.le (by omega)⟩

end Loop

/-! ### The start -/

section Start

variable {mem : Mem} {noop ws mss skip out : ℕ} {c : Call} {rest : List (BitVec 8)}

theorem tcp_dataOffset (b : BitVec 8) :
    BitVec.ofNat 64 b.toNat >>> 2 &&& (0x3c : BitVec 64) =
      BitVec.ofNat 64 (4 * (b >>> 4).toNat) := by
  revert b
  decide

theorem tcpOptionsEnd_eq (mem : Mem) (r1 : BitVec 32) :
    tcpOptionsEnd mem r1 =
      pxTCPPacket mem r1 + 34 + 4 * (byteAt mem (pxTCPHeader mem r1 + 12) >>> 4).toNat := by
  rw [tcpOptionsEnd, tcpOptions, pxTCPHeader]
  omega

theorem TcpFrame.starts (h : TcpFrame c noop ws mss skip out) (reg : BitVec 4 → BitVec 64) :
    Within (turn c) 11 (initState c reg mem)
      (TcpWalk mem (tcpOptionsEnd mem (load32 mem (c.mem + 4))) 11 out
        (tcpOptions mem (load32 mem (c.mem + 4)))) := by
  set r1 := load32 mem (c.mem + 4) with hr1
  have hframe : After (turn c) 2 (initState c reg mem) fun t => t.pc = BitVec.ofNat 16 2 ∧
      t.mem = mem ∧ t.reg 0 = 0 ∧ t.reg 1 =
        BitVec.ofNat 64 (loadLE mem ((c.mem.setWidth 64 + 4).setWidth 32) Size.w.bytes) :=
    h.startCode.block 0 2 rfl rfl rfl rfl ⟨rfl, rfl, rfl, rfl⟩
  refine hframe.seqWithin (n := 9) ?_
  rintro s ⟨hpc, hmem, h0, h1⟩
  have harg : (c.mem.setWidth 64 + 4).setWidth 32 = c.mem + 4 :=
    setWidth_add_setWidth _ _ (by decide)
  rw [ofNat_loadLE_word, harg, ← hr1] at h1
  have hpacket : After (turn c) 3 s fun t => t.pc = BitVec.ofNat 16 5 ∧ t.mem = s.mem ∧
      t.reg 0 = s.reg 0 ∧
      t.reg 1 = BitVec.ofNat 64 (loadLE s.mem ((s.reg 1 + 24).setWidth 32) Size.b.bytes) ∧
      t.reg 2 = BitVec.ofNat 64 (loadLE s.mem ((BitVec.ofNat 64 (loadLE s.mem
        ((s.reg 1 + 24).setWidth 32) Size.b.bytes) + BitVec.ofNat 64 46).setWidth 32)
          Size.b.bytes) ∧
      t.reg 3 = BitVec.ofNat 64 0x60 :=
    h.startCode.block 2 3 hpc rfl rfl rfl ⟨rfl, rfl, rfl, rfl, rfl, rfl⟩
  refine hpacket.seqWithin (n := 6) ?_
  rintro t ⟨htpc, hmem', h0', h1', h2', h3'⟩
  have hbyte := (byteAt mem (pxTCPHeader mem r1 + 12)).isLt
  have hpkt : pxTCPPacket mem r1 < 256 := (mem (r1 + 24)).isLt
  have hr : BitVec.ofNat 64 (loadLE s.mem ((s.reg 1 + 24).setWidth 32) Size.b.bytes) =
      BitVec.ofNat 64 (pxTCPPacket mem r1) := by
    rw [ofNat_loadLE_byte, h1, setWidth_add_setWidth _ _ (by decide), hmem, pxTCPPacket,
      BitVec.ofNat_toNat]
    rfl
  rw [hr] at h1' h2'
  rw [ofNat_loadLE_at _ rfl, hmem] at h2'
  have hoff : (byteAt mem (pxTCPHeader mem r1 + 12) >>> 4).toNat =
      (byteAt mem (pxTCPHeader mem r1 + 12)).toNat / 16 := by
    rw [BitVec.toNat_ushiftRight, Nat.shiftRight_eq_div_pow]
  have hend := tcpOptionsEnd_eq mem r1
  have hopts : tcpOptions mem r1 = pxTCPPacket mem r1 + 54 := rfl
  have hcond : jmpTaken .jgt .reg (t.reg 3) (t.reg 2) 0 =
      decide ((byteAt mem (pxTCPHeader mem r1 + 12)).toNat < 0x60) :=
    jmpTaken_jgt_reg h3' h2' (by decide) (by omega)
  by_cases hnone : (byteAt mem (pxTCPHeader mem r1 + 12)).toNat < 0x60
  · have hdone : TcpWalk mem (tcpOptionsEnd mem r1) 11 out (tcpOptions mem r1)
        { t with pc := BitVec.ofNat 16 out } :=
      ⟨by omega, fun hlt => absurd hlt (by omega), fun _ => ⟨rfl, h0'.trans h0⟩⟩
    exact .head (h.startCode.taken 5 out htpc rfl rfl rfl (hcond.trans (decide_eq_true hnone)))
      (.refl hdone)
  · have hlast : After (turn c) 6 t fun v => v.pc = BitVec.ofNat 16 11 ∧ v.mem = t.mem ∧
        v.reg 0 = t.reg 0 ∧ v.reg 1 = t.reg 1 + 0x36 ∧
        v.reg 2 = (t.reg 2 >>> 2 &&& 0x3c) + t.reg 1 + 0x22 :=
      .head (h.startCode.falls 5 htpc rfl rfl (hcond.trans (decide_eq_false hnone)))
        (h.startCode.block 6 5 rfl rfl rfl rfl ⟨rfl, rfl, rfl, rfl, rfl⟩)
    refine (hlast.within (Nat.le_refl 6)).mono ?_
    rintro v ⟨hvpc, hvmem, hv0, hv1, hv2⟩
    refine ⟨by omega, fun _ => ⟨hvpc, ⟨hvmem.trans (hmem'.trans hmem), hv0.trans (h0'.trans h0),
      ?_, ?_⟩⟩, fun hge => absurd hge (by omega)⟩
    · rw [hv1, h1', hopts, BitVec.ofNat_add]
      rfl
    · rw [hv2, h2', h1', hend]
      have hwords := tcp_dataOffset (byteAt mem (pxTCPHeader mem r1 + 12))
      show (BitVec.ofNat 64 (byteAt mem (pxTCPHeader mem r1 + 12)).toNat >>> 2 &&& 0x3c) + _ +
        BitVec.ofNat 64 34 = _
      rw [hwords, ← BitVec.ofNat_add, ← BitVec.ofNat_add]
      congr 1
      omega

theorem TcpFrame.exec (h : TcpFrame c noop ws mss skip out) (reg : BitVec 4 → BitVec 64)
    (mem : Mem) :
    ∃ ret, ebpfVmExec c reg mem = .stop (.returned .exit ret) ∧
      TcpFilterReturns mem (load32 mem (c.mem + 4)) ret := by
  have hend := tcpOptionsEnd_eq mem (load32 mem (c.mem + 4))
  have hopts : tcpOptions mem (load32 mem (c.mem + 4)) =
      pxTCPPacket mem (load32 mem (c.mem + 4)) + 54 := rfl
  have hpkt : pxTCPPacket mem (load32 mem (c.mem + 4)) < 256 :=
    (mem (load32 mem (c.mem + 4) + 24)).isLt
  have hoff : (byteAt mem (pxTCPHeader mem (load32 mem (c.mem + 4)) + 12) >>> 4).toNat < 16 := by
    rw [BitVec.toNat_ushiftRight, Nat.shiftRight_eq_div_pow]
    omega
  have hstarts : Within (turn c) 11 (initState c reg mem) _ := h.starts reg
  obtain ⟨m, hm, s, hs, hwalk⟩ := hstarts
  obtain ⟨ret, hret, hhalt⟩ := h.walk hwalk (by omega) (by omega) (by omega)
  have hpre : After (turn c) m (initState c reg mem) (· = s) := ⟨s, hs, rfl⟩
  refine ⟨ret, ebpfVmExec_of_halts (hpre.seqWithin fun t ht => ht ▸ hhalt) ?_, hret⟩
  have hbudget : 11 + (17 * 40 + 17) ≤ maxIters + 1 := by decide
  omega

theorem freertosTcp_frame (h : Runs 0 freertosTcpListing c) : TcpFrame c 20 23 28 39 44 where
  startCode := h.slice 0 11 rfl rfl
  kindCode := h.slice 11 7 rfl rfl
  noopCode := h.slice 20 3 rfl rfl
  wsCode := h.slice 23 5 rfl rfl
  mssCode := h.slice 28 8 rfl rfl
  skipCode := h.slice 39 4 rfl rfl
  other s hpc := by
    have hload : After (turn c) 1 s fun t => t.pc = BitVec.ofNat 16 19 ∧ t.mem = s.mem ∧
        t.reg 0 = s.reg 0 ∧ t.reg 1 = s.reg 1 ∧ t.reg 2 = s.reg 2 ∧ t.reg 3 =
          BitVec.ofNat 64 (loadLE s.mem ((s.reg 1 + BitVec.ofNat 64 1).setWidth 32)
            Size.b.bytes) :=
      h.block 18 1 hpc rfl rfl rfl ⟨rfl, rfl, rfl, rfl, rfl, rfl⟩
    refine hload.seqWithin (n := 1) ?_
    rintro t ⟨htpc, hrest⟩
    exact .head (h.jump 19 39 htpc rfl rfl) (.refl ⟨rfl, hrest⟩)
  verdict s hpc := by
    have hshift (t : State) (htpc : t.pc = BitVec.ofNat 16 43) :
        Within (turn c) 1 t fun v => v.pc = BitVec.ofNat 16 44 ∧ v.reg 0 = t.reg 0 <<< 32 :=
      After.within (h.block 43 1 htpc rfl rfl rfl ⟨rfl, rfl⟩) (Nat.le_refl 1)
    by_cases hzero : s.reg 1 = 0
    · rw [if_pos hzero]
      exact .head (h.taken 36 43 hpc rfl rfl rfl (beq_iff_eq.mpr hzero))
        ((hshift _ rfl).le (by decide))
    · rw [if_neg hzero]
      have hmov : After (turn c) 2 s fun t => t.pc = BitVec.ofNat 16 38 ∧ t.reg 0 = 0 :=
        .head (h.falls 36 hpc rfl rfl (beq_eq_false_iff_ne.mpr hzero))
          (h.block 37 1 rfl rfl rfl rfl ⟨rfl, rfl⟩)
      refine hmov.seqWithin (n := 2) ?_
      rintro t ⟨htpc, h0⟩
      refine .head (h.jump 38 43 htpc rfl rfl) ((hshift _ rfl).mono ?_)
      rintro v ⟨hvpc, hv⟩
      exact ⟨hvpc, hv.trans (by rw [h0]; rfl)⟩
  exit s hpc := h.exit 44 hpc rfl

theorem zephyrTcp_frame (h : Runs 0 zephyrTcpListing c) : TcpFrame c 23 26 31 19 42 where
  startCode := h.slice 0 11 rfl rfl
  kindCode := h.slice 11 7 rfl rfl
  noopCode := h.slice 23 3 rfl rfl
  wsCode := h.slice 26 5 rfl rfl
  mssCode := h.slice 31 8 rfl rfl
  skipCode := h.slice 19 4 rfl rfl
  other s hpc := by
    have hload : After (turn c) 1 s fun t => t.pc = BitVec.ofNat 16 19 ∧ t.mem = s.mem ∧
        t.reg 0 = s.reg 0 ∧ t.reg 1 = s.reg 1 ∧ t.reg 2 = s.reg 2 ∧ t.reg 3 =
          BitVec.ofNat 64 (loadLE s.mem ((s.reg 1 + BitVec.ofNat 64 1).setWidth 32)
            Size.b.bytes) :=
      h.block 18 1 hpc rfl rfl rfl ⟨rfl, rfl, rfl, rfl, rfl, rfl⟩
    exact hload.within (by decide)
  verdict s hpc := by
    have hshift (t : State) (htpc : t.pc = BitVec.ofNat 16 41) :
        Within (turn c) 1 t fun v => v.pc = BitVec.ofNat 16 42 ∧ v.reg 0 = t.reg 0 <<< 32 :=
      After.within (h.block 41 1 htpc rfl rfl rfl ⟨rfl, rfl⟩) (Nat.le_refl 1)
    by_cases hzero : s.reg 1 = 0
    · rw [if_pos hzero]
      exact .head (h.taken 39 41 hpc rfl rfl rfl (beq_iff_eq.mpr hzero))
        ((hshift _ rfl).le (by decide))
    · rw [if_neg hzero]
      have hmov : After (turn c) 2 s fun t => t.pc = BitVec.ofNat 16 41 ∧ t.reg 0 = 0 :=
        .head (h.falls 39 hpc rfl rfl (beq_eq_false_iff_ne.mpr hzero))
          (h.block 40 1 rfl rfl rfl rfl ⟨rfl, rfl⟩)
      refine hmov.seqWithin (n := 2) ?_
      rintro t ⟨htpc, h0⟩
      refine ((hshift t htpc).le (by decide)).mono ?_
      rintro v ⟨hvpc, hv⟩
      exact ⟨hvpc, hv.trans (by rw [h0]; rfl)⟩
  exit s hpc := h.exit 42 hpc rfl

end Start

/-- Both programs return, on every memory, what `filter` returns for the frame:
they drop the call exactly if the first segment size among the options is
zero. -/
theorem tcp_exec (code rest : List (BitVec 8)) (base : BitVec 32) (c : Call)
    (hcode : code = freertosCve16524 ∨ code = zephyrCve16524) (reg : BitVec 4 → BitVec 64)
    (mem : Mem) (hload : Loaded (code ++ rest) base c.vm mem)
    (hcheck : c.vm.boundsCheckEnabled = false) :
    ∃ ret, ebpfVmExec c reg mem = .stop (.returned .exit ret) ∧
      TcpFilterReturns mem (load32 mem (c.mem + 4)) ret ∧
      (filterOp ret = 1 ↔
        (mssValues mem (tcpOptionsEnd mem (load32 mem (c.mem + 4)))
          (tcpOptions mem (load32 mem (c.mem + 4)))).head? = some 0) := by
  have hexec : ∃ ret, ebpfVmExec c reg mem = .stop (.returned .exit ret) ∧
      TcpFilterReturns mem (load32 mem (c.mem + 4)) ret := by
    rcases hcode with rfl | rfl
    · obtain ⟨hruns, hexec⟩ := hload.runs hcheck disassemble_freertosTcp
        (by decide +kernel) (by decide +kernel)
      rw [hexec]
      exact (freertosTcp_frame hruns).exec reg mem
    · obtain ⟨hruns, hexec⟩ := hload.runs hcheck disassemble_zephyrTcp
        (by decide +kernel) (by decide +kernel)
      rw [hexec]
      exact (zephyrTcp_frame hruns).exec reg mem
  obtain ⟨ret, hret, n, hn⟩ := hexec
  exact ⟨ret, hret, ⟨n, hn⟩, tcpFilter_op hn⟩

/-- A frame whose r1 points to a buffer, with a header of seven words and the
options behind its five: a segment size of zero. -/
def zeroMssFrame : Mem := fun a =>
  if a = 0x20000005 then 1 else if a = 0x20000007 then 0x20 else if a = 0x20000118 then 128
  else if a = 174 then 0x70 else if a = 182 then 2 else if a = 183 then 4 else 0

theorem tcp_exec_zeroMss :
    ∃ ret, ebpfVmExec { callOf (freertosCve16524 ++ [0]) with mem := 0x20000000 } (fun _ => 7)
        (memcpy zeroMssFrame codeBase (freertosCve16524 ++ [0])) = .stop (.returned .exit ret) ∧
      filterOp ret = 1 := by
  set mem := memcpy zeroMssFrame codeBase (freertosCve16524 ++ [0]) with hmem
  obtain ⟨ret, hret, -, hop⟩ := tcp_exec freertosCve16524 [0] codeBase
    { callOf (freertosCve16524 ++ [0]) with mem := 0x20000000 } (.inl rfl) (fun _ => 7) mem
    (callOf_loaded _ _) rfl
  refine ⟨ret, hret, hop.mpr ?_⟩
  have hr1 : load32 mem (0x20000000 + 4) = 0x20000100 := by decide +kernel
  have hlt : tcpOptions mem 0x20000100 < tcpOptionsEnd mem 0x20000100 := by decide +kernel
  have hfirst : tcpOption mem (tcpOptions mem 0x20000100) = .mss 0 := by decide +kernel
  show (mssValues mem (tcpOptionsEnd mem (load32 mem (0x20000000 + 4)))
    (tcpOptions mem (load32 mem (0x20000000 + 4)))).head? = some 0
  rw [hr1, mssValues, if_pos hlt, hfirst]
  rfl

end RapidPatch.Patches
