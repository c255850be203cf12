import RapidPatch.Support.Memory

/-!
Spans of memory and the words in them.

`InSpan a n` is the span of `n` bytes from `a` on. Addresses wrap, and so may
a span; two spans at a known distance are compared by `InSpan.mono` and
`InSpan.not_of_far`. `storeWords` stores words one behind the other, and
`WordsAt` says that a span holds them: what was stored is there
(`wordsAt_storeWords`), stays there while its span is left alone
(`WordsAt.congr`), and nothing else is touched (`storeWords_outside`).
-/

namespace RapidPatch.Support

/-- One of the `n` addresses from `a` on. -/
def InSpan (a : BitVec 32) (n : ℕ) (x : BitVec 32) : Prop := (x - a).toNat < n

section

variable {a b x : BitVec 32} {k n : ℕ} {m m' : Mem}

theorem InSpan.mono (h : InSpan b k x) (hin : (b - a).toNat + k ≤ n) : InSpan a n x := by
  unfold InSpan at h ⊢
  bv_omega

theorem InSpan.le_of_subset (hk : 0 < k) (hkn : k + n ≤ 2 ^ 32)
    (h : ∀ x, InSpan b k x → InSpan a n x) : (b - a).toNat + k ≤ n := by
  have hfirst := h b (by unfold InSpan; bv_omega)
  have hlast := h (b + BitVec.ofNat 32 (k - 1)) (by unfold InSpan; bv_omega)
  unfold InSpan at hfirst hlast
  bv_omega

theorem InSpan.not_of_far (h : InSpan a n x) (hbehind : n ≤ (b - a).toNat)
    (hbefore : (b - a).toNat + k ≤ 2 ^ 32) : ¬InSpan b k x := by
  unfold InSpan at h ⊢
  bv_omega

theorem load32_congr (h : ∀ x, InSpan a 4 x → m x = m' x) : load32 m a = load32 m' a := by
  refine congrArg (BitVec.ofNat 32) (loadLE_congr fun i hi => h _ ?_)
  unfold InSpan
  rw [BitVec.add_comm, BitVec.add_sub_cancel, BitVec.toNat_ofNat]
  omega

theorem store32_outside (v : BitVec 32) (h : ¬InSpan a 4 x) : store32 m a v x = m x := if_neg h

end

/-! ### Words in a row -/

/-- The memory with words stored one behind the other from `a` on. -/
def storeWords (m : Mem) (a : BitVec 32) : List (BitVec 32) → Mem
  | [] => m
  | w :: ws => storeWords (store32 m a w) (a + 4) ws

/-- The words are in memory, one behind the other from `a` on. -/
def WordsAt (m : Mem) (a : BitVec 32) : List (BitVec 32) → Prop
  | [] => True
  | w :: ws => load32 m a = w ∧ WordsAt m (a + 4) ws

variable {m m' : Mem} {a x : BitVec 32} {ws : List (BitVec 32)}

theorem wordsAt_append {ws' : List (BitVec 32)} :
    WordsAt m a (ws ++ ws') ↔
      WordsAt m a ws ∧ WordsAt m (a + BitVec.ofNat 32 (4 * ws.length)) ws' := by
  induction ws generalizing a with
  | nil => simp [WordsAt]
  | cons w ws ih =>
      have haddr : a + 4 + BitVec.ofNat 32 (4 * ws.length) =
          a + BitVec.ofNat 32 (4 * (ws.length + 1)) := by
        rw [BitVec.add_assoc, Nat.mul_succ, Nat.add_comm (4 * ws.length), BitVec.ofNat_add]
        rfl
      simp only [List.cons_append, WordsAt, ih, List.length_cons, haddr, and_assoc]

theorem storeWords_outside (hlen : 4 * ws.length ≤ 2 ^ 32) (h : ¬InSpan a (4 * ws.length) x) :
    storeWords m a ws x = m x := by
  induction ws generalizing m a with
  | nil => rfl
  | cons w ws ih =>
      rw [List.length_cons] at hlen h
      have hrest : ¬InSpan (a + 4) (4 * ws.length) x := by
        unfold InSpan at h ⊢
        bv_omega
      have hfirst : ¬InSpan a 4 x := by
        unfold InSpan at h ⊢
        omega
      rw [storeWords, ih (by omega) hrest, store32_outside w hfirst]

theorem WordsAt.congr (h : WordsAt m a ws) (hlen : 4 * ws.length ≤ 2 ^ 32)
    (hm : ∀ x, InSpan a (4 * ws.length) x → m' x = m x) : WordsAt m' a ws := by
  induction ws generalizing a with
  | nil => trivial
  | cons w ws ih =>
      rw [List.length_cons] at hlen hm
      refine ⟨?_, ih h.2 (by omega) fun x hx => hm x ?_⟩
      · rw [← h.1]
        refine load32_congr fun x hx => hm x (hx.mono ?_)
        rw [BitVec.sub_self]
        show 0 + 4 ≤ _
        omega
      · unfold InSpan at hx ⊢
        bv_omega

theorem wordsAt_storeWords (m : Mem) (a : BitVec 32) (hlen : 4 * ws.length ≤ 2 ^ 32) :
    WordsAt (storeWords m a ws) a ws := by
  induction ws generalizing m a with
  | nil => trivial
  | cons w ws ih =>
      rw [List.length_cons] at hlen
      refine ⟨?_, ih _ _ (by omega)⟩
      have hsame : load32 (storeWords (store32 m a w) (a + 4) ws) a = load32 (store32 m a w) a := by
        refine load32_congr fun x hx => storeWords_outside (by omega) ?_
        unfold InSpan at hx ⊢
        bv_omega
      rw [storeWords, hsame, load32_store32]

end RapidPatch.Support
