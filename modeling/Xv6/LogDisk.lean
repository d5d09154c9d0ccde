import Xv6.Log

/-!
# What a crash leaves on the disk

`Recovers g d X`: whatever the header block of `d` lists, running `recover_from_log` on `d` leaves the
home blocks with the contents `X`: the log holds the `X`-contents of the listed blocks, and every
other home block already has its `X`-contents. It is the only thing the rest of the development
needs to know about a disk at a crash, and it survives a partial installation of the listed blocks.
-/

namespace Xv6.Log

open Function (update update_self update_of_ne)

/-! ### The header block -/

theorem word_putBlocks (b : Block) (i : Nat) (xs : List Nat) (hi : i + xs.length < 127) (j : Nat) :
    (putBlocks b i xs).word j =
      if i < j ∧ j ≤ i + xs.length then UInt32.ofNat (xs.getD (j - i - 1) 0) else b.word j := by
  induction xs generalizing b i with
  | nil => rw [putBlocks, if_neg (by simp only [List.length_nil]; omega)]
  | cons x xs ih =>
    simp only [List.length_cons] at hi
    rw [putBlocks, ih _ _ (by omega)]
    by_cases h1 : j = i + 1
    · subst h1
      rw [if_neg (by omega), if_pos (by simp only [List.length_cons]; omega),
        Bytes.word_setWord _ (show 4 * (i + 1) + 4 ≤ 512 by omega)]
      simp
    rw [Bytes.word_setWord_ne _ h1]
    by_cases h2 : i + 1 < j ∧ j ≤ i + 1 + xs.length
    · rw [if_pos h2, if_pos (by simp only [List.length_cons]; omega),
        show j - i - 1 = (j - (i + 1) - 1) + 1 by omega, List.getD_cons_succ]
    · rw [if_neg h2, if_neg (by simp only [List.length_cons]; omega)]

theorem readHeader_putHeader (b : Block) {lh : List Nat} (hlen : lh.length ≤ LOGSIZE)
    (hlt : ∀ x ∈ lh, x < 2 ^ 32) : readHeader (putHeader b lh) = lh := by
  have hn : lh.length < 2 ^ 31 := by simp only [LOGSIZE, MAXOPBLOCKS] at hlen; omega
  have hl : lh.length < 127 := by simp only [LOGSIZE, MAXOPBLOCKS] at hlen; omega
  have h0 : ((putHeader b lh).word 0).toBitVec.toInt.toNat = lh.length := by
    rw [putHeader, word_putBlocks _ _ _ (by omega), if_neg (by omega), Bytes.word_setWord _ (by decide)]
    have h1 : (UInt32.ofNat lh.length).toBitVec.toNat = lh.length := by
      rw [UInt32.toNat_toBitVec, UInt32.toNat_ofNat']; omega
    rw [BitVec.toInt_eq_toNat_of_lt (by rw [h1]; omega), h1, Int.toNat_natCast]
  have hlen' : (readHeader (putHeader b lh)).length = lh.length := by
    simp only [readHeader, List.length_map, List.length_range, h0]
  refine List.ext_getElem hlen' fun i hi hi' => ?_
  have hw : (putHeader b lh).word (i + 1) = UInt32.ofNat lh[i] := by
    rw [putHeader, word_putBlocks _ _ _ (by omega), if_pos (by omega), show i + 1 - 0 - 1 = i by omega,
      List.getD_eq_getElem _ _ hi']
  have := hlt _ (List.getElem_mem hi')
  simp only [readHeader, List.getElem_map, List.getElem_range, hw, UInt32.toNat_ofNat']
  omega

/-! ### Applying updates -/

theorem apply_append (d : Nat → Block) (us vs : List Update) :
    apply d (us ++ vs) = apply (apply d us) vs := List.foldl_append

theorem apply_snoc (d : Nat → Block) (us : List Update) (u : Update) :
    apply d (us ++ [u]) = update (apply d us) u.blockno u.data := by rw [apply_append]; rfl

theorem apply_of_notMem (d : Nat → Block) (us : List Update) {b : Nat} (h : b ∉ us.map (·.blockno)) :
    apply d us b = d b := by
  induction us using List.reverseRecOn with
  | nil => rfl
  | append_singleton us u ih =>
    simp only [List.map_append, List.mem_append, List.map_cons, List.map_nil, List.mem_singleton,
      not_or] at h
    rw [apply_snoc, update_of_ne h.2, ih h.1]

/-! ### Disks from which recovery yields given contents -/

structure Recovers (g : Geometry) (d X : Nat → Block) : Prop where
  size : (readHeader (d g.start)).length ≤ g.size - 1
  home : ∀ b ∈ readHeader (d g.start), g.Home b
  logged : ∀ i b, (readHeader (d g.start))[i]? = some b → d (g.start + i + 1) = X b
  rest : ∀ b, g.Home b → b ∉ readHeader (d g.start) → d b = X b

variable {g : Geometry} {d X : Nat → Block}

theorem Recovers.of_empty (hh : readHeader (d g.start) = []) (hX : ∀ b, g.Home b → d b = X b) :
    Recovers g d X :=
  ⟨by simp [hh], by simp [hh], by simp [hh], fun b hb _ => hX b hb⟩

theorem Geometry.not_home_start (g : Geometry) : ¬ g.Home g.start := by
  have := g.size_pos
  unfold Geometry.Home; omega

theorem Geometry.not_home_log (g : Geometry) {i : Nat} (h : i < g.size - 1) : ¬ g.Home (g.start + i + 1) := by
  unfold Geometry.Home; omega

theorem Geometry.ne_of_home {b c : Nat} (hb : g.Home b) (hc : ¬ g.Home c) : b ≠ c := by
  rintro rfl
  exact hc hb

/-- Home blocks may take their final contents before the header is cleared. -/
theorem Recovers.install {d' : Nat → Block} (h : Recovers g d X) (hd : ∀ b, ¬ g.Home b → d' b = d b)
    (hX : ∀ b, g.Home b → d' b = d b ∨ d' b = X b) : Recovers g d' X := by
  have hh : readHeader (d' g.start) = readHeader (d g.start) := by rw [hd _ g.not_home_start]
  refine ⟨by rw [hh]; exact h.size, by rw [hh]; exact h.home, fun i b hb => ?_, fun b hb hnot => ?_⟩
  · rw [hh] at hb
    have hlt := (List.getElem?_eq_some_iff.1 hb).1
    have := h.size
    rw [hd _ (g.not_home_log (by omega)), h.logged i b hb]
  · rw [hh] at hnot
    rcases hX b hb with h' | h'
    · rw [h', h.rest b hb hnot]
    · exact h'

end Xv6.Log
