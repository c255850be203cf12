import RapidPatch.Hotpatch.PatchService

/-!
The update server of `server.py`, and the protocol between it and a device.

The server sends a heartbeat before each patch, and the patch only if the
device answers; a client that does not answer is closed and gets nothing more.
`Session` is what a client can be sent that way. Whatever a session is, the
device takes one turn of its loop for each message, calls `notify_new_patch`
once for each patch, with the type, the location and the code that the server
was given, and stands at the next command byte after each message
(`update_round_trip`).
-/

namespace RapidPatch.Hotpatch

open RapidPatch.Support

/-! ### The server -/

/-- An entry of `patch.json` with the contents of its code file as `bin`. -/
structure Conf where
  type : ℕ
  loc : ℕ
  bin : List (BitVec 8)

/-- The entries that fit the fields of a packet and the length of a frame. -/
structure Conf.Valid (conf : Conf) : Prop where
  type : conf.type < 2 ^ 16
  loc : conf.loc < 2 ^ 32
  bin : conf.bin.length + 24 ≤ 65535

/-- `PatchPacket.from_conf`, on a little-endian machine. -/
def fromConf (conf : Conf) : List (BitVec 8) :=
  le16 conf.type ++ le16 conf.bin.length ++ le32 conf.loc ++ conf.bin

def patchSign : List (BitVec 8) := List.replicate 16 0x73

def loadPatch (conf : Conf) : List (BitVec 8) := patchSign ++ fromConf conf

/-- `struct.pack('B', n)`, which raises an error for other numbers. -/
def structPackB (n : ℕ) : Option (BitVec 8) := if n < 256 then some (BitVec.ofNat 8 n) else none

/-- The bytes that `send_data` sends. -/
def sendData (cmd : ℕ) (buf : List (BitVec 8)) : Option (List (BitVec 8)) := do
  let bys ← structPackB cmd
  if buf = [] then return [bys]
  else
    let high ← structPackB (buf.length / 256)
    let low ← structPackB (buf.length % 256)
    return bys :: high :: low :: buf

/-- `check_client_alive`, by the data it receives: `struct.unpack` raises an
error unless it is a single byte. -/
def checkClientAlive (data : List (BitVec 8)) : Bool :=
  match data with
  | [b] => b = 2
  | _ => false

/-- The commands of the server: `load` and `alive`. -/
inductive ServerOp
  | load (conf : Conf)
  | alive

/-- The bytes of one `sendall`, and the patch if they are one. -/
structure Message where
  bytes : List (BitVec 8)
  conf : Option Conf

def heartbeat : Message where
  bytes := [2]
  conf := none

/-- What a client is sent, by the data received behind each heartbeat. An
error of `struct.pack` ends the server before it sends anything. -/
def transcript (reply : ℕ → List (BitVec 8)) : ℕ → List ServerOp → List Message
  | _, [] => []
  | k, .alive :: ops =>
      heartbeat :: if checkClientAlive (reply k) then transcript reply (k + 1) ops else []
  | k, .load conf :: ops =>
      match sendData 1 (loadPatch conf) with
      | none => []
      | some bys =>
          heartbeat ::
            if checkClientAlive (reply k) then
              { bytes := bys, conf := some conf } :: transcript reply (k + 1) ops
            else []

def frame (conf : Conf) : List (BitVec 8) :=
  1 :: BitVec.ofNat 8 ((loadPatch conf).length / 256) ::
    BitVec.ofNat 8 ((loadPatch conf).length % 256) :: loadPatch conf

theorem length_fromConf (conf : Conf) : (fromConf conf).length = conf.bin.length + 8 := by
  simp [fromConf, le16, le32]

theorem length_loadPatch (conf : Conf) : (loadPatch conf).length = conf.bin.length + 24 := by
  rw [loadPatch, List.length_append, length_fromConf, patchSign, List.length_replicate]
  omega

theorem sendData_load {conf : Conf} (h : conf.Valid) :
    sendData 1 (loadPatch conf) = some (frame conf) := by
  have hlen := length_loadPatch conf
  have hbin := h.bin
  have hne : loadPatch conf ≠ [] := by
    intro hnil
    rw [hnil] at hlen
    cases hlen
  have hhigh : (loadPatch conf).length / 256 < 256 := by omega
  have hlow : (loadPatch conf).length % 256 < 256 := Nat.mod_lt _ (by decide)
  simp [sendData, structPackB, hne, hhigh, hlow, frame]

/-! ### Sessions -/

/-- The messages a client can be sent from the `k`-th heartbeat on, if the
device's answers are sent with the results `sends`: only the last heartbeat
may fail. -/
inductive Session (sends : ℕ → ℕ) : ℕ → List Message → Prop
  | nil (k : ℕ) : Session sends k []
  | last (k : ℕ) : Session sends k [heartbeat]
  | heartbeat {k : ℕ} {ms : List Message} (hsend : sends k = 1) (h : Session sends (k + 1) ms) :
      Session sends k (heartbeat :: ms)
  | load {k : ℕ} {ms : List Message} {conf : Conf} (hvalid : conf.Valid) (h : Session sends k ms) :
      Session sends k ({ bytes := frame conf, conf := some conf } :: ms)

/-- The server keeps to sessions. -/
theorem transcript_session {reply : ℕ → List (BitVec 8)} {sends : ℕ → ℕ}
    (hreply : ∀ k, checkClientAlive (reply k) = true → sends k = 1) (ops : List ServerOp)
    (hops : ∀ conf, .load conf ∈ ops → conf.Valid) (k : ℕ) :
    Session sends k (transcript reply k ops) := by
  induction ops generalizing k with
  | nil => exact .nil k
  | cons op ops ih =>
      have htail := ih (fun conf hconf => hops conf (List.mem_cons_of_mem _ hconf)) (k + 1)
      cases op with
      | alive =>
          rw [transcript]
          split
          · exact .heartbeat (hreply k ‹_›) htail
          · exact .last k
      | load conf =>
          have hvalid := hops conf (List.mem_cons_self ..)
          rw [transcript, sendData_load hvalid]
          dsimp only
          split
          · exact .heartbeat (hreply k ‹_›) (.load hvalid htail)
          · exact .last k

def ServerOp.conf : ServerOp → Option Conf
  | .load conf => some conf
  | .alive => none

/-- A client that always answers is sent every patch. -/
theorem transcript_confs (reply : ℕ → List (BitVec 8))
    (hreply : ∀ k, checkClientAlive (reply k) = true) (ops : List ServerOp)
    (hops : ∀ conf, .load conf ∈ ops → conf.Valid) (k : ℕ) :
    (transcript reply k ops).filterMap (·.conf) = ops.filterMap ServerOp.conf := by
  induction ops generalizing k with
  | nil => rfl
  | cons op ops ih =>
      have htail := ih (fun conf hconf => hops conf (List.mem_cons_of_mem _ hconf)) (k + 1)
      cases op with
      | alive =>
          rw [transcript, if_pos (hreply k)]
          exact htail
      | load conf =>
          rw [transcript, sendData_load (hops conf (List.mem_cons_self ..))]
          dsimp only
          rw [if_pos (hreply k)]
          exact congrArg (conf :: ·) htail

/-! ### The device on one message -/

/-- What a packet says, as an entry of the server. -/
def Packet.conf (p : Packet) : Conf where
  type := p.type.toNat
  loc := p.instAddr.toNat
  bin := p.code

theorem Packet.conf_eq {p : Packet} {conf : Conf} (hvalid : conf.Valid)
    (h : HasAt p.bytes 0 (fromConf conf)) : p.conf = conf := by
  obtain ⟨type, loc, bin⟩ := conf
  obtain ⟨h, hbin⟩ := h.append
  obtain ⟨h, hloc⟩ := h.append
  obtain ⟨htype, hlen⟩ := h.append
  change HasAt p.bytes 2 (le16 bin.length) at hlen
  change HasAt p.bytes 4 (le32 loc) at hloc
  change HasAt p.bytes 8 bin at hbin
  have hbinLen : bin.length + 24 ≤ 65535 := hvalid.bin
  have htype' : p.type.toNat = type := by
    rw [Packet.type, htype.u16At, BitVec.toNat_ofNat, Nat.mod_eq_of_lt hvalid.type]
  have hlen' : p.codeLen.toNat = bin.length := by
    rw [Packet.codeLen, hlen.u16At, BitVec.toNat_ofNat, Nat.mod_eq_of_lt]
    omega
  have hloc' : p.instAddr.toNat = loc := by
    rw [Packet.instAddr, hloc.u32At, BitVec.toNat_ofNat, Nat.mod_eq_of_lt hvalid.loc]
  have hbin' : p.code = bin := by
    rw [Packet.code, hlen']
    exact hbin.bytesAt
  rw [Packet.conf, htype', hloc', hbin']

variable {F : Type} {env : Env F} {heap : ℕ → BitVec 8} {d : Device F Stream}
  {rest : List (BitVec 8)}

theorem readsCommand_of_bytes {cmd : BitVec 8} (hrunning : d.status = .running)
    (hbytes : d.link.bytes = cmd :: rest) :
    ReadsCommand (streamConnection heap) d cmd.toNat := by
  have hone : (receiveCommand (streamConnection heap) d).1 = [cmd] := by
    simp [receiveCommand, streamConnection, hbytes]
  refine ⟨hrunning, by rw [hone]; rfl, ?_⟩
  have hbuf : (receiveCommand (streamConnection heap) d).2.buf = overlay [cmd] d.buf := by
    simp [receiveCommand, streamConnection, hbytes]
  rw [hbuf]
  simp [byte2int, overlay]

theorem waitTurn_heartbeat (env : Env F) (heap : ℕ → BitVec 8) (hrunning : d.status = .running)
    (hbytes : d.link.bytes = 2 :: rest) :
    ∃ d', waitTurn env (streamConnection heap) d = .cont d' ∧ d'.calls = d.calls ∧ d'.sys = d.sys ∧
      d'.link = { d.link with bytes := rest, sendCount := d.link.sendCount + 1 } ∧
      (d.link.sends d.link.sendCount = 1 → d'.status = .running) := by
  have hcmd : ReadsCommand (streamConnection heap) d 2 := readsCommand_of_bytes hrunning hbytes
  rw [waitTurn_eq hcmd]
  refine ⟨_, rfl, rfl, rfl, ?_, fun hsend => ?_⟩
  · simp [receiveCommand, streamConnection, hbytes]
  · simp [receiveCommand, streamConnection, hsend]

theorem packetSize_of_le {len : ℕ} (h : 16 ≤ len) (hlt : len ≤ 65535) :
    packetSize len = len - 16 := by
  have hsub : (len : ℤ) - 16 = ((len - 16 : ℕ) : ℤ) := by omega
  rw [packetSize, hsub, BitVec.ofInt_natCast, BitVec.toNat_ofNat, Nat.mod_eq_of_lt (by omega)]

theorem readLoad_frame {conf : Conf} (hvalid : conf.Valid) (heap buf : ℕ → BitVec 8) {link : Stream}
    (hbytes : 1 :: link.bytes = frame conf ++ rest) :
    (readLoad (streamConnection heap) buf link).link = { link with bytes := rest } ∧
      (readLoad (streamConnection heap) buf link).pkt = overlay (fromConf conf) heap := by
  have hbin := hvalid.bin
  have hlen := length_loadPatch conf
  have hsign : patchSign.length = 16 := rfl
  have htail : link.bytes = BitVec.ofNat 8 ((loadPatch conf).length / 256) ::
      BitVec.ofNat 8 ((loadPatch conf).length % 256) :: (patchSign ++ (fromConf conf ++ rest)) := by
    simpa [frame, loadPatch] using hbytes
  have hsize : packetSize (byte2int (overlay [BitVec.ofNat 8 ((loadPatch conf).length / 256),
      BitVec.ofNat 8 ((loadPatch conf).length % 256)] buf) 2) = (fromConf conf).length := by
    have hint : byte2int (overlay [BitVec.ofNat 8 ((loadPatch conf).length / 256),
        BitVec.ofNat 8 ((loadPatch conf).length % 256)] buf) 2 = (loadPatch conf).length := by
      simp [byte2int, overlay, List.range_succ]
      omega
    rw [hint, packetSize_of_le (by omega) (by omega), length_fromConf]
    omega
  simp only [readLoad, streamConnection, htail, List.take_succ_cons, List.take_zero,
    List.drop_succ_cons, List.drop_zero, hsize, List.take_left' hsign, List.drop_left' hsign,
    List.take_left, List.drop_left, and_self]

theorem nextLoad_frame {conf : Conf} (hvalid : conf.Valid) (heap : ℕ → BitVec 8)
    (hrunning : d.status = .running) (hbytes : d.link.bytes = frame conf ++ rest) :
    ∃ r, nextLoad (streamConnection heap) d = some r ∧ r.link = { d.link with bytes := rest } ∧
      r.packet.conf = conf := by
  have hcmd : ReadsCommand (streamConnection heap) d 1 := readsCommand_of_bytes hrunning hbytes
  have hlink :
      1 :: (receiveCommand (streamConnection heap) d).2.link.bytes = frame conf ++ rest := by
    simp only [receiveCommand, streamConnection, hbytes]
    rfl
  obtain ⟨hrest, hpkt⟩ := readLoad_frame hvalid heap
    (receiveCommand (streamConnection heap) d).2.buf hlink
  refine ⟨_, if_pos hcmd, hrest, Packet.conf_eq hvalid ?_⟩
  rw [LoadReads.packet, hpkt]
  exact hasAt_overlay _ _

/-! ### The device on a session -/

def wire (ms : List Message) : List (BitVec 8) := ms.flatMap (·.bytes)

/-- One turn for each message, one call for each patch, and the next command
byte ahead. -/
def Delivered (env : Env F) (heap : ℕ → BitVec 8) (d : Device F Stream) (sent todo : List Message)
    (rest : List (BitVec 8)) : Prop :=
  ∃ d', run (waitTurn env (streamConnection heap)) sent.length d = .cont d' ∧
    d'.link.bytes = wire todo ++ rest ∧
    d'.calls.map Packet.conf = d.calls.map Packet.conf ++ sent.filterMap (·.conf)

theorem Delivered.nil {todo : List Message} (h : d.link.bytes = wire todo ++ rest) :
    Delivered env heap d [] todo rest := ⟨d, rfl, h, by simp⟩

theorem Delivered.cons {d₁ : Device F Stream} {m : Message} {sent todo : List Message}
    (hstep : waitTurn env (streamConnection heap) d = .cont d₁)
    (hcalls : d₁.calls.map Packet.conf = d.calls.map Packet.conf ++ m.conf.toList)
    (h : Delivered env heap d₁ sent todo rest) : Delivered env heap d (m :: sent) todo rest := by
  obtain ⟨d', hrun, hbytes, hconfs⟩ := h
  refine ⟨d', ?_, hbytes, ?_⟩
  · rw [List.length_cons, run_succ_cont hstep, hrun]
  · rw [hconfs, hcalls, List.append_assoc]
    cases hconf : m.conf <;> simp [hconf]

theorem Session.delivered (env : Env F) (heap : ℕ → BitVec 8) {sends : ℕ → ℕ} {k : ℕ}
    {ms : List Message} (h : Session sends k ms) (d : Device F Stream)
    (hrunning : d.status = .running) (hfixed : d.sys.fixedPatches ≠ none)
    (hlink : d.link = { bytes := wire ms ++ rest, sends := sends, sendCount := k })
    (sent todo : List Message) (hms : ms = sent ++ todo) :
    Delivered env heap d sent todo rest := by
  -- on the session: each message is one turn, and leaves a shorter session
  induction h generalizing d sent with
  | nil k =>
      obtain ⟨rfl, rfl⟩ := List.append_eq_nil_iff.mp hms.symm
      exact .nil (by rw [hlink])
  | last k =>
      -- the device may stop after this turn, and nothing follows
      cases sent with
      | nil => exact .nil (by rw [hlink, hms]; rfl)
      | cons m sent =>
          obtain ⟨rfl, hsent⟩ := List.cons.inj hms
          obtain ⟨rfl, rfl⟩ := List.append_eq_nil_iff.mp hsent.symm
          obtain ⟨d₁, hstep, hcalls, -, hlink₁, -⟩ :=
            waitTurn_heartbeat env heap hrunning (by rw [hlink]; rfl)
          exact .cons hstep (by simp [hcalls, Hotpatch.heartbeat]) (.nil (by rw [hlink₁]; rfl))
  | @heartbeat k ms hsend hsession ih =>
      cases sent with
      | nil => exact .nil (by rw [hlink, hms]; rfl)
      | cons m sent =>
          obtain ⟨rfl, hsent⟩ := List.cons.inj hms
          obtain ⟨d₁, hstep, hcalls, hsys, hlink₁, hstatus⟩ :=
            waitTurn_heartbeat env heap hrunning (by rw [hlink]; rfl)
          refine .cons hstep (by simp [hcalls, Hotpatch.heartbeat]) (ih d₁ ?_ ?_ ?_ sent hsent)
          · rw [hlink] at hstatus
            exact hstatus hsend
          · rwa [hsys]
          · rw [hlink₁, hlink]
            rfl
  | @load k ms conf hvalid hsession ih =>
      cases sent with
      | nil => exact .nil (by rw [hlink, hms]; rfl)
      | cons m sent =>
          obtain ⟨rfl, hsent⟩ := List.cons.inj hms
          have hbytes : d.link.bytes = frame conf ++ (wire ms ++ rest) := by
            rw [hlink]
            simp [wire]
          obtain ⟨r, hload, hrest, hconf⟩ := nextLoad_frame hvalid heap hrunning hbytes
          obtain ⟨d₁, hstep, hfixed₁, hcalls, hstatus, hlink₁⟩ := waitTurn_load env hload hfixed
          refine .cons hstep (by simp [hcalls, hconf]) (ih d₁ hstatus hfixed₁ ?_ sent hsent)
          rw [hlink₁, hrest, hlink]

/-- For every sequence of server commands and every outcome of the heartbeats:
the device reads the messages it is sent one by one, calls `notify_new_patch`
once for each patch among them, in order and with what the server was given,
and stands at the next command byte after each of them. -/
theorem update_round_trip (env : Env F) (heap : ℕ → BitVec 8) (reply : ℕ → List (BitVec 8))
    (sends : ℕ → ℕ) (hreply : ∀ k, checkClientAlive (reply k) = true → sends k = 1)
    (ops : List ServerOp) (hops : ∀ conf, .load conf ∈ ops → conf.Valid) (rest : List (BitVec 8))
    (d : Device F Stream) (hrunning : d.status = .running) (hfixed : d.sys.fixedPatches ≠ none)
    (hlink : d.link =
      { bytes := wire (transcript reply 0 ops) ++ rest, sends := sends, sendCount := 0 })
    (sent todo : List Message) (hms : transcript reply 0 ops = sent ++ todo) :
    Delivered env heap d sent todo rest :=
  (transcript_session hreply ops hops 0).delivered env heap d hrunning hfixed hlink sent todo hms

/-! ### One patch -/

def exitPatch : Conf where
  type := 2
  loc := 0x08000100
  bin := [0x95, 0, 0, 0, 0, 0, 0, 0]

theorem exitPatch_valid {conf : Conf} (h : ServerOp.load conf ∈ [.alive, .load exitPatch]) :
    conf.Valid := by
  obtain rfl : conf = exitPatch := by simpa using h
  exact ⟨by decide, by decide, by decide⟩

theorem exitPatch_delivered :
    ∃ d', run (waitTurn listEnv (streamConnection fun _ => 0))
        (transcript (fun _ => [2]) 0 [.alive, .load exitPatch]).length
        (serviceOn (wire (transcript (fun _ => [2]) 0 [.alive, .load exitPatch]))) = .cont d' ∧
      d'.calls.map Packet.conf = [exitPatch] := by
  have hconfs := transcript_confs (fun _ => [2]) (fun _ => rfl) [.alive, .load exitPatch]
    (fun _ => exitPatch_valid) 0
  obtain ⟨d', hrun, -, hcalls⟩ := update_round_trip listEnv (fun _ => 0) (fun _ => [2])
    (fun _ => 1) (fun _ _ => rfl) [.alive, .load exitPatch] (fun _ => exitPatch_valid) []
    (serviceOn (wire (transcript (fun _ => [2]) 0 [.alive, .load exitPatch]))) rfl
    (serviceOn_fixedPatches _) (by rw [List.append_nil]; rfl)
    (transcript (fun _ => [2]) 0 [.alive, .load exitPatch]) [] (List.append_nil _).symm
  refine ⟨d', hrun, ?_⟩
  rw [hcalls, hconfs]
  rfl

end RapidPatch.Hotpatch
