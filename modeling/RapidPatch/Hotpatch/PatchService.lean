import RapidPatch.Hotpatch.PatchList
import RapidPatch.Support.Bytes
import RapidPatch.Support.Machine

/-!
The device side of the update protocol, `patch_service.c`.

The device waits for command bytes. `LOAD` is followed by the length of a
frame, a signature and a packet that starts with a `patch_desc`; the packet is
received into a new block and handed to `notify_new_patch` as it is. The
connection is a parameter: a receive may return fewer bytes than were asked
for, the static buffer and the block keep what they held behind them, and no
result of these receives is looked at. So a frame is installed whatever its
lengths say (`calls_inBounds_iff`) and however much of it has arrived
(`shortInstallsNothing_iff`).
-/

namespace RapidPatch.Hotpatch

open RapidPatch.Support

/-! ### Packets -/

/-- A packet handed to `notify_new_patch`: the length of its frame, and the
memory from `paylod.pkt` on. -/
structure Packet where
  len : ℕ
  bytes : ℕ → BitVec 8

namespace Packet

/-- `patch->type`. -/
def type (p : Packet) : BitVec 16 := u16At p.bytes 0

/-- `patch->code_len`. -/
def codeLen (p : Packet) : BitVec 16 := u16At p.bytes 2

/-- `patch->inst_addr`. -/
def instAddr (p : Packet) : BitVec 32 := u32At p.bytes 4

def code (p : Packet) : List (BitVec 8) := bytesAt p.bytes 8 p.codeLen.toNat

/-- The descriptor and the code lie in the packet, which is the frame without
the signature. -/
structure InBounds (p : Packet) : Prop where
  desc : 16 + 8 ≤ p.len
  code : 8 + p.codeLen.toNat ≤ p.len - 16

end Packet

/-! ### The service -/

/-- `byte2int`: big-endian. -/
def byte2int (buf : ℕ → BitVec 8) (len : ℕ) : ℕ :=
  (List.range len).foldl (fun val i => val * 256 + (buf i).toNat) 0

/-- `enum context_status`. -/
inductive Status
  | waitForInit
  | running
  deriving DecidableEq

/-- The functions of `patch_service`, and what the heap holds where a packet
is allocated. -/
structure Connection (σ : Type) where
  /-- The bytes stored by `receive_buf`, whose number it returns. -/
  receiveBuf : σ → ℕ → List (BitVec 8) × σ
  sendBuf : σ → List (BitVec 8) → ℕ × σ
  heap : σ → ℕ → BitVec 8

structure Device (F σ : Type) where
  status : Status
  /-- `buf`, four bytes. -/
  buf : ℕ → BitVec 8
  link : σ
  sys : PatchSys F
  descCount : ℕ
  /-- The calls of `notify_new_patch` so far. -/
  calls : List Packet

/-- How `wait_for_patch` ends. -/
inductive ServiceEnd
  | returned
  | disconnected
  /-- `notify_new_patch` without a patch context. -/
  | crashed
  deriving DecidableEq

/-- The receives of a `LOAD` command. -/
structure LoadReads (σ : Type) where
  lenBytes : List (BitVec 8)
  /-- `buf` after the first receive. -/
  buf : ℕ → BitVec 8
  sign : List (BitVec 8)
  bytes : List (BitVec 8)
  /-- The packet's memory. -/
  pkt : ℕ → BitVec 8
  link : σ

def LoadReads.len {σ : Type} (r : LoadReads σ) : ℕ := byte2int r.buf 2

/-- The packet that is handed to `notify_new_patch`. -/
def LoadReads.packet {σ : Type} (r : LoadReads σ) : Packet where
  len := r.len
  bytes := r.pkt

/-- `pkt_len`, as the `size_t` that it is passed as. -/
def packetSize (len : ℕ) : ℕ := (BitVec.ofInt 32 ((len : ℤ) - 16)).toNat

section

variable {F σ : Type} (env : Env F) (conn : Connection σ)

def readLoad (buf : ℕ → BitVec 8) (link : σ) : LoadReads σ :=
  let (lenBytes, link) := conn.receiveBuf link 2
  let buf := overlay lenBytes buf
  let pktLen := packetSize (byte2int buf 2)
  let heap := conn.heap link
  let (sign, link) := conn.receiveBuf link 16
  let (bytes, link) := conn.receiveBuf link pktLen
  { lenBytes := lenBytes, buf := buf, sign := sign, bytes := bytes, pkt := overlay bytes heap
    link := link }

/-- `notify_new_patch` of a packet, which is the descriptor. -/
def notifyPacket (d : Device F σ) (p : Packet) : Option (Device F σ) := do
  let n := d.descCount + 1
  let desc : PatchDesc := { type := p.type, addr := p.instAddr }
  let sys ← notifyNewPatch env { d.sys with desc := Function.update d.sys.desc n desc } n
  return { d with sys := sys, descCount := n, calls := d.calls ++ [p] }

def dispatchPatchCommand (d : Device F σ) (cmd : ℕ) : Option (Device F σ) :=
  match cmd with
  | 0 => some { d with status := .waitForInit }
  | 1 =>
      let r := readLoad conn d.buf d.link
      notifyPacket env { d with buf := r.buf, link := r.link } r.packet
  | 2 =>
      let (sz, link) := conn.sendBuf d.link [2]
      some { d with link := link, status := if sz = 1 then .running else .waitForInit }
  | _ => some d

/-- The receive of a command byte into `buf`. -/
def receiveCommand (d : Device F σ) : List (BitVec 8) × Device F σ :=
  let (bytes, link) := conn.receiveBuf d.link 1
  (bytes, { d with buf := overlay bytes d.buf, link := link })

/-- One turn of the loop of `wait_for_patch`. -/
def waitTurn (d : Device F σ) : Next (Device F σ) ServiceEnd :=
  if d.status ≠ .running then .stop .returned
  else
    let (bytes, d) := receiveCommand conn d
    if bytes.length ≠ 1 then .stop .disconnected
    else
      match dispatchPatchCommand env conn d (byte2int d.buf 1) with
      | some d => .cont d
      | none => .stop .crashed

/-- The turn that comes next reads a command. -/
def ReadsCommand (d : Device F σ) (cmd : ℕ) : Prop :=
  d.status = .running ∧ (receiveCommand conn d).1.length = 1 ∧
    byte2int (receiveCommand conn d).2.buf 1 = cmd

instance ReadsCommand.decidable (d : Device F σ) (cmd : ℕ) : Decidable (ReadsCommand conn d cmd) :=
  inferInstanceAs (Decidable (_ ∧ _ ∧ _))

/-- The receives of the next turn, if it reads `LOAD`. -/
def nextLoad (d : Device F σ) : Option (LoadReads σ) :=
  if ReadsCommand conn d 1 then
    some (readLoad conn (receiveCommand conn d).2.buf (receiveCommand conn d).2.link)
  else none

end

/-! ### One turn -/

variable {F σ : Type} {env : Env F} {conn : Connection σ} {d d' : Device F σ} {r : LoadReads σ}

/-- With a patch context, `notify_new_patch` never fails. -/
theorem notifyNewPatch_isSome (env : Env F) {s : PatchSys F} (hfixed : s.fixedPatches ≠ none)
    (n : ℕ) : ∃ s', notifyNewPatch env s n = some s' ∧ s'.fixedPatches ≠ none := by
  have hadd : ∃ t p, addEbpfPatch env s n = some (t, p) ∧ t.fixedPatches ≠ none := by
    obtain ⟨fixed, hfixed'⟩ := Option.ne_none_iff_exists'.mp hfixed
    unfold addEbpfPatch
    dsimp only
    split
    · simp [addFixedPatchToCtx, ebpfPatchSetup, hfixed']
    · split
      · refine ⟨_, _, rfl, ?_⟩
        rw [(addDynamicPatchToCtx_same _ _).fixedPatches]
        exact hfixed
      · exact ⟨_, _, rfl, hfixed⟩
  obtain ⟨t, p, hadd, ht⟩ := hadd
  obtain ⟨s', hs'⟩ := activePatch_isSome env ht p
  refine ⟨s', ?_, ?_⟩
  · rw [notifyNewPatch, hadd]
    exact hs'
  · rw [(activePatch_activates hs').2.fixedPatches]
    exact ht

theorem notifyPacket_isSome (env : Env F) (hfixed : d.sys.fixedPatches ≠ none) (p : Packet) :
    ∃ d', notifyPacket env d p = some d' ∧ d'.sys.fixedPatches ≠ none ∧
      d'.calls = d.calls ++ [p] ∧ d'.status = d.status ∧ d'.link = d.link := by
  obtain ⟨sys, hsys, hfixed'⟩ := notifyNewPatch_isSome env (s := { d.sys with
    desc := Function.update d.sys.desc (d.descCount + 1)
      { type := p.type, addr := p.instAddr } }) hfixed (d.descCount + 1)
  refine ⟨{ d with sys := sys, descCount := d.descCount + 1, calls := d.calls ++ [p] }, ?_, hfixed',
    rfl, rfl, rfl⟩
  simp only [notifyPacket]
  rw [hsys]
  rfl

theorem waitTurn_eq {cmd : ℕ} (h : ReadsCommand conn d cmd) :
    waitTurn env conn d =
      match dispatchPatchCommand env conn (receiveCommand conn d).2 cmd with
      | some d' => .cont d'
      | none => .stop .crashed := by
  obtain ⟨hrunning, hone, hcmd⟩ := h
  simp only [waitTurn, hrunning, hone, hcmd, ne_eq, not_true_eq_false, if_false]

theorem waitTurn_cont (h : waitTurn env conn d = .cont d') :
    ∃ cmd, ReadsCommand conn d cmd ∧
      dispatchPatchCommand env conn (receiveCommand conn d).2 cmd = some d' := by
  have hreads : ∃ cmd, ReadsCommand conn d cmd := by
    simp only [waitTurn] at h
    split at h
    · cases h
    · split at h
      · cases h
      · rename_i hrunning hone
        exact ⟨_, by simpa using hrunning, by simpa using hone, rfl⟩
  obtain ⟨cmd, hcmd⟩ := hreads
  refine ⟨cmd, hcmd, ?_⟩
  rw [waitTurn_eq hcmd] at h
  split at h
  · cases h
    assumption
  · cases h

theorem waitTurn_load (env : Env F) (hload : nextLoad conn d = some r)
    (hfixed : d.sys.fixedPatches ≠ none) :
    ∃ d', waitTurn env conn d = .cont d' ∧ d'.sys.fixedPatches ≠ none ∧
      d'.calls = d.calls ++ [r.packet] ∧ d'.status = .running ∧ d'.link = r.link := by
  unfold nextLoad at hload
  split at hload
  · rename_i hcmd
    cases hload
    have hfixed₁ : (receiveCommand conn d).2.sys.fixedPatches ≠ none := hfixed
    generalize hd₁ : (receiveCommand conn d).2 = d₁ at hfixed₁
    obtain ⟨d', hd', hfixed', hcalls, hstatus, hlink⟩ := notifyPacket_isSome env
      (d := { d₁ with
        buf := (readLoad conn d₁.buf d₁.link).buf
        link := (readLoad conn d₁.buf d₁.link).link }) hfixed₁ (readLoad conn d₁.buf d₁.link).packet
    refine ⟨d', ?_, hfixed', ?_, ?_, hlink⟩
    · rw [waitTurn_eq hcmd, hd₁]
      simp only [dispatchPatchCommand, hd']
    · rw [hcalls, ← hd₁]
      rfl
    · rw [hstatus, ← hd₁]
      exact hcmd.1
  · cases hload

/-- Other commands leave the patch context alone. -/
theorem waitTurn_other (h : waitTurn env conn d = .cont d') (hload : nextLoad conn d = none) :
    d'.calls = d.calls ∧ d'.sys = d.sys := by
  obtain ⟨cmd, hcmd, hdispatch⟩ := waitTurn_cont h
  unfold dispatchPatchCommand at hdispatch
  split at hdispatch
  · cases hdispatch
    exact ⟨rfl, rfl⟩
  · rw [nextLoad, if_pos hcmd] at hload
    cases hload
  · cases hdispatch
    exact ⟨rfl, rfl⟩
  · cases hdispatch
    exact ⟨rfl, rfl⟩

/-- Either way, the calls grow by the packet of the frame that was read, and
the patch context stays. -/
theorem waitTurn_calls (h : waitTurn env conn d = .cont d') (hfixed : d.sys.fixedPatches ≠ none) :
    d'.sys.fixedPatches ≠ none ∧
      d'.calls = d.calls ++ (nextLoad conn d).toList.map LoadReads.packet := by
  cases hload : nextLoad conn d with
  | none =>
      obtain ⟨hcalls, hsys⟩ := waitTurn_other h hload
      rw [hsys, hcalls]
      exact ⟨hfixed, by simp⟩
  | some r =>
      obtain ⟨d₁, hd₁, hfixed₁, hcalls, -, -⟩ := waitTurn_load env hload hfixed
      obtain rfl : d' = d₁ := by
        rw [h] at hd₁
        cases hd₁
        rfl
      exact ⟨hfixed₁, by simpa using hcalls⟩

theorem reaches_fixedPatches (h : Reaches (waitTurn env conn) d d')
    (hfixed : d.sys.fixedPatches ≠ none) : d'.sys.fixedPatches ≠ none :=
  h.invariant (P := fun e : Device F σ => e.sys.fixedPatches ≠ none)
    (fun _ _ he hstep => (waitTurn_calls hstep he).1) hfixed

/-! ### Lengths from the wire -/

/-- The frame is long enough for the descriptor and for as much code as it
announces, in the bytes of `buf` and of the packet. -/
def LoadReads.WellFormed (r : LoadReads σ) : Prop :=
  24 + ((r.pkt 2).toNat + 256 * (r.pkt 3).toNat) ≤ 256 * (r.buf 0).toNat + (r.buf 1).toNat

theorem LoadReads.packet_inBounds_iff (r : LoadReads σ) : r.packet.InBounds ↔ r.WellFormed := by
  have hlen : r.packet.len = 256 * (r.buf 0).toNat + (r.buf 1).toNat := by
    simp [LoadReads.packet, LoadReads.len, byte2int, List.range_succ, Nat.mul_comm]
  have hcode : r.packet.codeLen.toNat = (r.pkt 2).toNat + 256 * (r.pkt 3).toNat :=
    toNat_u16At r.pkt 2
  unfold LoadReads.WellFormed
  constructor
  · rintro ⟨hdesc, hin⟩
    omega
  · intro h
    constructor <;> omega

/-- Every packet that is handed to `notify_new_patch` in a run is in bounds
exactly when every `LOAD` frame that is read is well formed. -/
theorem calls_inBounds_iff (env : Env F) (conn : Connection σ) (d : Device F σ)
    (hfixed : d.sys.fixedPatches ≠ none) (hcalls : d.calls = []) :
    (∀ d', Reaches (waitTurn env conn) d d' → ∀ p ∈ d'.calls, p.InBounds) ↔
      ∀ d', Reaches (waitTurn env conn) d d' → ∀ r, nextLoad conn d' = some r → r.WellFormed := by
  constructor
  · intro hin d₁ hd₁ r hr
    obtain ⟨d₂, hd₂, -, hcalls₂, -, -⟩ := waitTurn_load env hr (reaches_fixedPatches hd₁ hfixed)
    rw [← r.packet_inBounds_iff]
    exact hin d₂ (hd₁.trans (.single hd₂)) r.packet (by simp [hcalls₂])
  · intro hwell d' hd'
    -- each turn adds the packet of the frame it reads
    induction hd' with
    | refl => simp [hcalls]
    | tail hu hstep ih =>
        rename_i u v
        intro p hp
        rw [(waitTurn_calls hstep (reaches_fixedPatches hu hfixed)).2] at hp
        rcases List.mem_append.mp hp with hp | hp
        · exact ih p hp
        · obtain ⟨r, hr, rfl⟩ := List.mem_map.mp hp
          rw [r.packet_inBounds_iff]
          exact hwell u hu r (Option.mem_toList.mp hr)

/-! ### Short reads -/

/-- A receive of the command returned fewer bytes than it was asked for. -/
def LoadReads.Short (r : LoadReads σ) : Prop :=
  r.lenBytes.length < 2 ∨ r.sign.length < 16 ∨ r.bytes.length < packetSize r.len

/-- The turn makes no call and leaves the patch context as it is. -/
def InstallsNothing (env : Env F) (conn : Connection σ) (d : Device F σ) : Prop :=
  ∀ d', waitTurn env conn d = .cont d' → d'.calls = d.calls ∧ d'.sys = d.sys

/-- In a run, short receives of `LOAD` frames install nothing exactly when
there are none. -/
theorem shortInstallsNothing_iff (env : Env F) (conn : Connection σ) (d : Device F σ)
    (hfixed : d.sys.fixedPatches ≠ none) :
    (∀ d', Reaches (waitTurn env conn) d d' → ∀ r, nextLoad conn d' = some r → r.Short →
        InstallsNothing env conn d') ↔
      ∀ d', Reaches (waitTurn env conn) d d' → ∀ r, nextLoad conn d' = some r → ¬r.Short := by
  constructor
  · intro hnothing d₁ hd₁ r hr hshort
    obtain ⟨d₂, hd₂, -, hcalls, -, -⟩ := waitTurn_load env hr (reaches_fixedPatches hd₁ hfixed)
    rw [(hnothing d₁ hd₁ r hr hshort d₂ hd₂).1] at hcalls
    simp at hcalls
  · intro hnone d₁ hd₁ r hr hshort
    exact absurd hshort (hnone d₁ hd₁ r hr)

/-! ### A connection that is a list of bytes -/

/-- What is still to come, the results of `send_buf`, and the number of calls
of it so far. -/
structure Stream where
  bytes : List (BitVec 8)
  sends : ℕ → ℕ
  sendCount : ℕ

/-- A receive returns as many bytes as it is asked for while there are any. -/
def streamConnection (heap : ℕ → BitVec 8) : Connection Stream where
  receiveBuf := fun s n => (s.bytes.take n, { s with bytes := s.bytes.drop n })
  sendBuf := fun s _ => (s.sends s.sendCount, { s with sendCount := s.sendCount + 1 })
  heap := fun _ => heap

/-- A service with an initialised context that is about to read some bytes,
over a cleared heap. -/
def serviceOn (bytes : List (BitVec 8)) : Device (List (BitVec 32 × ℕ)) Stream where
  status := .running
  buf := fun _ => 0
  link := { bytes := bytes, sends := fun _ => 1, sendCount := 0 }
  sys := contextAfter []
  descCount := 0
  calls := []

theorem serviceOn_fixedPatches (bytes : List (BitVec 8)) :
    (serviceOn bytes).sys.fixedPatches ≠ none := by
  have hfixed : (contextAfter []).fixedPatches ≠ none := by decide
  exact hfixed

theorem reaches_of_single_load {bytes : List (BitVec 8)} {r : LoadReads Stream}
    (hload : nextLoad (streamConnection fun _ => 0) (serviceOn bytes) = some r)
    (hend : r.link.bytes = []) {d : Device (List (BitVec 32 × ℕ)) Stream}
    (hd : Reaches (waitTurn listEnv (streamConnection fun _ => 0)) (serviceOn bytes) d) :
    d = serviceOn bytes ∨ nextLoad (streamConnection fun _ => 0) d = none := by
  have hempty : ∀ e : Device (List (BitVec 32 × ℕ)) Stream, e.link.bytes = [] →
      ∀ cmd, ¬ReadsCommand (streamConnection fun _ => 0) e cmd := by
    rintro e he cmd ⟨-, hone, -⟩
    simp [receiveCommand, streamConnection, he] at hone
  -- at the end of the bytes no command can be read
  have hinv : d = serviceOn bytes ∨ d.link.bytes = [] := by
    refine hd.invariant (P := fun e => e = serviceOn bytes ∨ e.link.bytes = []) ?_ (.inl rfl)
    rintro u v (rfl | hu) hstep
    · obtain ⟨d', hd', -, -, -, hlink⟩ :=
        waitTurn_load listEnv hload (serviceOn_fixedPatches bytes)
      rw [hd'] at hstep
      cases hstep
      exact .inr (by rw [hlink, hend])
    · obtain ⟨cmd, hcmd, -⟩ := waitTurn_cont hstep
      exact absurd hcmd (hempty u hu cmd)
  rcases hinv with rfl | hlink
  · exact .inl rfl
  · exact .inr (if_neg (hempty d hlink 1))

/-- The one `LOAD` is the only one that is ever read. -/
theorem nextLoad_of_single_load {bytes : List (BitVec 8)} {r r' : LoadReads Stream}
    (hload : nextLoad (streamConnection fun _ => 0) (serviceOn bytes) = some r)
    (hend : r.link.bytes = []) {d : Device (List (BitVec 32 × ℕ)) Stream}
    (hd : Reaches (waitTurn listEnv (streamConnection fun _ => 0)) (serviceOn bytes) d)
    (hr' : nextLoad (streamConnection fun _ => 0) d = some r') : r' = r := by
  rcases reaches_of_single_load hload hend hd with rfl | hnone
  · exact Option.some.inj (hr'.symm.trans hload)
  · rw [hnone] at hr'
    cases hr'

/-- `LOAD` of a fixed patch at `0x08002950` with two bytes of code. -/
def loadFrame : List (BitVec 8) :=
  [1, 0, 26] ++ List.replicate 16 0x73 ++ [1, 0, 2, 0, 0x50, 0x29, 0x00, 0x08] ++ [0x95, 0x00]

theorem loadFrame_nextLoad :
    ∃ r, nextLoad (streamConnection fun _ => 0) (serviceOn loadFrame) = some r ∧ r.link.bytes = [] ∧
      r.WellFormed ∧ ¬r.Short := by
  refine ⟨_, rfl, rfl, ?_, ?_⟩
  · unfold LoadReads.WellFormed
    decide
  · unfold LoadReads.Short
    decide

theorem loadFrame_inBounds :
    (serviceOn loadFrame).sys.fixedPatches ≠ none ∧
      ∀ d, Reaches (waitTurn listEnv (streamConnection fun _ => 0)) (serviceOn loadFrame) d →
        ∀ p ∈ d.calls, p.InBounds := by
  refine ⟨serviceOn_fixedPatches loadFrame, ?_⟩
  obtain ⟨r, hload, hend, hwell, -⟩ := loadFrame_nextLoad
  refine (calls_inBounds_iff listEnv (streamConnection fun _ => 0) (serviceOn loadFrame)
    (serviceOn_fixedPatches loadFrame) rfl).mpr ?_
  intro d hd r' hr'
  obtain rfl := nextLoad_of_single_load hload hend hd hr'
  exact hwell

theorem loadFrame_not_short :
    (serviceOn loadFrame).sys.fixedPatches ≠ none ∧
      ∀ d, Reaches (waitTurn listEnv (streamConnection fun _ => 0)) (serviceOn loadFrame) d →
        ∀ r, nextLoad (streamConnection fun _ => 0) d = some r → r.Short →
          InstallsNothing listEnv (streamConnection fun _ => 0) d := by
  refine ⟨serviceOn_fixedPatches loadFrame, ?_⟩
  obtain ⟨r, hload, hend, -, hshort⟩ := loadFrame_nextLoad
  refine (shortInstallsNothing_iff listEnv (streamConnection fun _ => 0) (serviceOn loadFrame)
    (serviceOn_fixedPatches loadFrame)).mpr ?_
  intro d hd r' hr'
  obtain rfl := nextLoad_of_single_load hload hend hd hr'
  exact hshort

/-- `LOAD` of a frame of 24 bytes that announces 65535 bytes of code. -/
def overlongFrame : List (BitVec 8) :=
  [1, 0, 24] ++ List.replicate 16 0x73 ++ [1, 0, 0xff, 0xff, 0x50, 0x29, 0x00, 0x08]

theorem overlongFrame_not_inBounds :
    (serviceOn overlongFrame).sys.fixedPatches ≠ none ∧ (serviceOn overlongFrame).calls = [] ∧
      ∃ d, Reaches (waitTurn listEnv (streamConnection fun _ => 0)) (serviceOn overlongFrame) d ∧
        ∃ p ∈ d.calls, p.len = 24 ∧ p.codeLen = 65535 ∧ ¬p.InBounds := by
  refine ⟨serviceOn_fixedPatches _, rfl, ?_⟩
  have hload : nextLoad (streamConnection fun _ => 0) (serviceOn overlongFrame) = some _ := rfl
  obtain ⟨d, hd, -, hcalls, -, -⟩ := waitTurn_load listEnv hload (serviceOn_fixedPatches _)
  refine ⟨d, .single hd, _,
    by rw [hcalls]; exact List.mem_append_right _ (List.mem_singleton_self _),
    by decide, by decide, ?_⟩
  rintro ⟨-, hcode⟩
  revert hcode
  decide

/-- The connection ends behind the frame length, and the packet is what the
heap held. -/
theorem broken_connection_installs :
    (serviceOn [1, 0, 40]).sys.fixedPatches ≠ none ∧
      ∃ r, nextLoad (streamConnection fun _ => 0) (serviceOn [1, 0, 40]) = some r ∧ r.Short ∧
        r.sign = [] ∧ r.bytes = [] ∧
        ∃ d, waitTurn listEnv (streamConnection fun _ => 0) (serviceOn [1, 0, 40]) = .cont d ∧
          d.calls.length = 1 := by
  have hload : nextLoad (streamConnection fun _ => 0) (serviceOn [1, 0, 40]) = some _ := rfl
  refine ⟨serviceOn_fixedPatches _, _, hload, ?_, rfl, rfl, ?_⟩
  · unfold LoadReads.Short
    decide
  · obtain ⟨d, hd, -, hcalls, -, -⟩ := waitTurn_load listEnv hload (serviceOn_fixedPatches _)
    refine ⟨d, hd, ?_⟩
    rw [hcalls]
    rfl

end RapidPatch.Hotpatch
