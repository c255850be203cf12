import RapidPatch.Hotpatch.Deployment
import RapidPatch.Hotpatch.FreshPatch
import RapidPatch.Patches.LoopFree

/-!
From the server to the call.

An operator gives the server a program and the location of a function. The
server sends it, the device receives and installs it, a comparator breaks at the
location, and the debug monitor runs the program on the registers it has saved.
`served_patch_resumes` joins the results on these parts: the core goes on as the
C source of the program says, for every program without loops and every session
whose dynamic patches are for different words.
-/

namespace RapidPatch.Patches

open RapidPatch.Support RapidPatch.Vm RapidPatch.Hotpatch

/-- Where the heap has put what the calls of `notify_new_patch` work on: each
packet, and the machine that is made for it, with what its block held. -/
structure Blocks where
  packet : ℕ → BitVec 32
  machine : ℕ → VmObject
  helpers : BitVec 32

section

variable {F σ : Type}

/-- The machine of the patch of a call. `desc->code` is behind the descriptor. -/
def Blocks.vm (b : Blocks) (q : ℕ) (p : Packet) : VmObject :=
  (b.machine q).initEbpfVm b.helpers (b.packet q + 8) (p.codeLen.setWidth 32)

/-- `run_patch_here` up to the result of the filter. -/
def filterHere (d : Device F σ) (b : Blocks) (w : FilterWorld) (ctx : BitVec 32) :
    Option FilterRun := do
  let q ← getDynamicPatchByBpkt d.sys (stackContextAt w.mem ctx).pc
  let p ← d.calls[q - 1]?
  return runEbpfFilter w (b.vm q p) ctx 16

/-- The code of the packets is still in their blocks, and the machines were made
in blocks whose two flags were clear. -/
structure Blocks.Keep (b : Blocks) (w : FilterWorld) (d : Device F σ) : Prop where
  packets : ∀ n p, d.calls[n]? = some p → HasAt (bytesFrom w.mem (b.packet (n + 1) + 8)) 0 p.code
  useJit : ∀ q, (b.machine q).useJit = 0
  boundsCheckEnabled : ∀ q, (b.machine q).boundsCheckEnabled = 0

/-- The machine of a patch runs the code of its packet. -/
theorem Blocks.Keep.loaded {b : Blocks} {w : FilterWorld} {d : Device F σ} (h : b.Keep w d) {n : ℕ}
    {p : Packet} (hp : d.calls[n]? = some p) (ctx : BitVec 32) :
    ∃ c : Call, runEbpfFilter w (b.vm (n + 1) p) ctx 16 =
        .interpreted (ebpfVmExec c w.reg w.mem) ∧
      Loaded p.code (b.packet (n + 1) + 8) c.vm w.mem ∧ c.vm.boundsCheckEnabled = false ∧
      c.mem = ctx := by
  have hunchecked : decide ((b.vm (n + 1) p).boundsCheckEnabled ≠ 0) = false :=
    decide_eq_false (not_not.mpr (h.boundsCheckEnabled _))
  refine ⟨w.call (b.vm (n + 1) p) ctx 16, if_neg (not_not.mpr (h.useJit _)), ?_, hunchecked, rfl⟩
  refine .setInst (w.extFuncsAt b.helpers) ?_ (h.packets n p hp)
  simp only [ebpfVmSetInst, VmRecord.ebpfVm, FilterWorld.call, hunchecked]
  rfl

end

/-- For every sequence of server commands and every outcome of the heartbeats:
when the device has read what it is sent, each dynamic patch it has received has
a breakpoint at the word of its location, and if its code is that of a shipped
program without loops, is still where it was received and is interpreted, then at
this breakpoint the debug monitor goes on as the source of the program says. -/
theorem served_patch_resumes {F : Type} (env : Env F) (handler : ℕ → BitVec 32)
    (heap : ℕ → BitVec 8) (reply : ℕ → List (BitVec 8)) (sends : ℕ → ℕ)
    (hreply : ∀ k, checkClientAlive (reply k) = true → sends k = 1) (ops : List ServerOp)
    (hops : ∀ conf, .load conf ∈ ops → conf.Valid)
    (hsep : SeparateConfs ((transcript reply 0 ops).filterMap (·.conf)))
    (d : Device F Stream) (hfresh : FreshService env d) (hrunning : d.status = .running)
    (hlink : d.link =
      { bytes := wire (transcript reply 0 ops), sends := sends, sendCount := 0 })
    (f : Fpb) (hclear : f.Cleared) :
    ∃ d', run (waitTurn env (streamConnection heap)) (transcript reply 0 ops).length d = .cont d' ∧
      d'.calls.map Packet.conf = (transcript reply 0 ops).filterMap (·.conf) ∧
      ∀ conf ∈ (transcript reply 0 ops).filterMap (·.conf), conf.type = 2 →
        (d'.fpb env handler f).BreaksAt (BitVec.ofNat 32 (conf.loc / 4 * 4)) ∧
        ∀ p : LoopFree, conf.bin = p.code → ∀ (b : Blocks) (w : FilterWorld) (ctx : BitVec 32),
          b.Keep w d' → (stackContextAt w.mem ctx).pc = BitVec.ofNat 32 (conf.loc / 4 * 4) →
          ∃ ret, filterHere d' b w ctx = some (.interpreted (.stop (.returned .exit ret))) ∧
            (stackContextAt w.mem ctx).leaveDebugMonitor (some ret) =
              (stackContextAt w.mem ctx).monitorResume (p.verdict w.mem ctx) := by
  have hsession := transcript_session hreply ops hops 0
  obtain ⟨d', hrun, -, hconfs⟩ := hsession.delivered env heap d hrunning hfresh.installed.fixed
    (by rw [List.append_nil]; exact hlink) (transcript reply 0 ops) [] (List.append_nil _).symm
  rw [hfresh.calls, List.map_nil, List.nil_append] at hconfs
  have hinst := hfresh.reaches (reaches_of_run hrun)
  have hseparate : Separate d'.calls := SeparateConfs.packets (by rwa [hconfs])
  refine ⟨d', hrun, hconfs, ?_⟩
  intro conf hconf hdynamic
  rw [← hconfs] at hconf
  obtain ⟨p, hp, rfl⟩ := List.mem_map.mp hconf
  obtain ⟨n, hn⟩ := List.getElem?_of_mem hp
  have hword : p.word = BitVec.ofNat 32 (p.conf.loc / 4 * 4) := by
    rw [← p.toNat_word, BitVec.ofNat_toNat, BitVec.setWidth_eq]
  have hbreaks := hseparate.breaksAt env handler hclear hp ((dynamic_iff p).mpr hdynamic)
  rw [hword] at hbreaks
  refine ⟨hbreaks, ?_⟩
  intro prog hbin b w ctx hkeep hpc
  have hlookup : getDynamicPatchByBpkt d'.sys (stackContextAt w.mem ctx).pc = some (n + 1) :=
    (hinst.lookup_iff hseparate _ _).mpr
      ⟨n, p, rfl, hn, (dynamic_iff p).mpr hdynamic, hword.trans hpc.symm⟩
  obtain ⟨c, hfilter, hloaded, hunchecked, hmem⟩ := hkeep.loaded hn ctx
  have hcode : Loaded (prog.code ++ []) (b.packet (n + 1) + 8) c.vm w.mem := by
    rw [List.append_nil, ← hbin]
    exact hloaded
  have hexec := prog.exec hcode hunchecked w.reg
  refine ⟨prog.source w.mem ctx, ?_, ?_⟩
  · simp only [filterHere, hlookup, Option.bind_eq_bind, Option.bind_some, Nat.add_sub_cancel, hn,
      hfilter, hexec, hmem, Option.pure_def]
  · rw [StackContext.leaveDebugMonitor_eq_monitorResume, (prog.source_verdict w.mem ctx).here]

/-- `atest_cve` at `0x08000102`, which is in the word at `0x08000100`. -/
def atestConf : Conf where
  type := 2
  loc := 0x08000102
  bin := LoopFree.atestCve.code

/-- The received program, and the frame of a call with the argument 3000 that
stopped at `0x08000100`. -/
def atestMem : Mem :=
  memcpy (store32 (store32 (fun _ => 0) 0x20000000 3000) 0x20000018 0x08000100) 0x20002008
    LoopFree.atestCve.code

theorem atest_served :
    ∃ d', run (waitTurn listEnv (streamConnection fun _ => 0))
        (transcript (fun _ => [2]) 0 [.load atestConf]).length
        (serviceOn (wire (transcript (fun _ => [2]) 0 [.load atestConf]))) = .cont d' ∧
      ∃ (b : Blocks) (w : FilterWorld) (ret : BitVec 64), w.mem = atestMem ∧
        filterHere d' b w 0x20000000 = some (.interpreted (.stop (.returned .exit ret))) ∧
        (stackContextAt atestMem 0x20000000).leaveDebugMonitor (some ret) =
          { pc := 0, args := { r0 := 0, r1 := 0, r2 := 0, r3 := 0 } } := by
  have hvalid : ∀ conf, ServerOp.load conf ∈ [ServerOp.load atestConf] → conf.Valid := by
    intro conf hconf
    obtain rfl : conf = atestConf := by simpa using hconf
    exact ⟨by decide, by decide, by decide⟩
  have hconfs : (transcript (fun _ => [2]) 0 [.load atestConf]).filterMap (·.conf) = [atestConf] :=
    transcript_confs (fun _ => [2]) (fun _ => rfl) _ hvalid 0
  obtain ⟨d', hrun, hcalls, hserved⟩ := served_patch_resumes listEnv (fun _ => 0) (fun _ => 0)
    (fun _ => [2]) (fun _ => 1) (fun _ _ => rfl) [.load atestConf] hvalid
    (by rw [hconfs]; exact ⟨by decide, by decide, List.pairwise_singleton _ _⟩)
    (serviceOn (wire (transcript (fun _ => [2]) 0 [.load atestConf])))
    ⟨⟨threeDescs, rfl, rfl⟩, rfl, rfl⟩ rfl rfl clearDevice.fpb
    ⟨clearDevice_fresh.monitor, rfl, clearDevice_fresh.clear⟩
  rw [hconfs] at hcalls hserved
  obtain ⟨p, hp, hpconf⟩ : ∃ p, d'.calls = [p] ∧ p.conf = atestConf := by
    obtain ⟨p, ps, hps, hpconf, hrest⟩ := List.map_eq_cons_iff.mp hcalls
    rw [List.map_eq_nil_iff] at hrest
    exact ⟨p, by rw [hps, hrest], hpconf⟩
  have hpcode : p.code = LoopFree.atestCve.code := congrArg Conf.bin hpconf
  let b : Blocks := { packet := fun _ => 0x20002000, machine := fun _ => .cleared, helpers := 0 }
  let w : FilterWorld :=
    { extFuncsAt := fun _ _ => none, stack := 0x20001000, overshift := fun _ _ => 0, oneShl32 := 0
      reg := fun _ => 0, mem := atestMem }
  have hkeep : b.Keep w d' := by
    refine ⟨?_, fun _ => rfl, fun _ => rfl⟩
    intro n q hq
    rw [hp, List.getElem?_singleton] at hq
    split at hq
    · cases hq
      rw [hpcode]
      exact hasAt_memcpy _ 0x20002008 (by decide)
    · cases hq
  obtain ⟨-, hat⟩ := hserved atestConf (List.mem_singleton_self _) rfl
  have hpc : (stackContextAt atestMem 0x20000000).pc = 0x08000100 := by decide +kernel
  have hdrop : (stackContextAt atestMem 0x20000000).monitorResume
      (LoopFree.atestCve.verdict atestMem 0x20000000) =
        { pc := 0, args := { r0 := 0, r1 := 0, r2 := 0, r3 := 0 } } := by decide +kernel
  obtain ⟨ret, hfilter, hresume⟩ := hat .atestCve rfl b w 0x20000000 hkeep hpc
  exact ⟨d', hrun, b, w, ret, rfl, hfilter, hresume.trans hdrop⟩

end RapidPatch.Patches
