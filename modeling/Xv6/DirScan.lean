import Xv6.Dir
import Xv6.FsContent

/-!
# Reading a directory

Entry `k` of a directory is what its bytes `16 k … 16 k + 15` mean. As long as the blocks it reads are
there, the loop over a directory changes nothing and stops at the first entry that satisfies the
predicate, or behind the last one.
-/

namespace Xv6

/-! ### Names -/

theorem chars_cstr {l : List UInt8} (h : ∀ c ∈ l, c ≠ 0) (n : Nat) : chars (cstr l) n = l.take n := by
  induction n generalizing l with
  | zero => rfl
  | succ n ih =>
    cases l with
    | nil => rfl
    | cons c l =>
      have hc : cstr (c :: l) 0 ≠ 0 := h c List.mem_cons_self
      have hrest : rest (cstr (c :: l)) = cstr l := rfl
      rw [chars, if_pos hc, hrest, ih fun c' hc' => h c' (List.mem_cons_of_mem _ hc'), List.take_succ_cons]
      rfl

theorem Dirent.named_iff {name : List UInt8} {de : Dirent} :
    Dirent.named name de = true ↔ de.inum ≠ 0 ∧ chars (cstr name) DIRSIZ = chars de.str DIRSIZ := by
  rw [Dirent.named, decide_eq_true_iff, namecmp, strncmp_eq_zero_iff]

/-! ### Entries -/

namespace Store

def dirent (st : Store) (i k : Nat) : Dirent := Dirent.read fun j => st.byte i (DIRENT * k + j)

end Store

namespace Fs

variable {s : Fs} {dp : Slot}

def HasEntries (s : Fs) (dp : Slot) (n : Nat) : Prop :=
  ∀ pos, pos < DIRENT * n → s.view.ref (s.icache dp).inum (Store.slot (pos / BSIZE)) ≠ 0

theorem readi_dirent (h : s.Open dp) (hdev : (s.icache dp).type ≠ T_DEV) {n k : Nat} (hn : s.HasEntries dp n)
    (hk : k < n) (hsize : DIRENT * k + DIRENT ≤ (s.icache dp).size.toNat)
    (hmax : (s.icache dp).size.toNat ≤ MAXFILE * BSIZE) :
    ∃ bs, readi dp (UInt32.ofNat (DIRENT * k)) (UInt32.ofNat DIRENT) s = (.ok (some bs), s) ∧
      bs.length = DIRENT ∧ Dirent.read (cstr bs) = s.view.dirent (s.icache dp).inum k := by
  have hoff : (UInt32.ofNat (DIRENT * k)).toNat = DIRENT * k := by
    rw [UInt32.toNat_ofNat']
    simp only [MAXFILE, NDIRECT, NINDIRECT, BSIZE, DIRENT] at *
    omega
  have hlen : (UInt32.ofNat DIRENT).toNat = DIRENT := rfl
  have hadd : ¬ UInt32.ofNat (DIRENT * k) + UInt32.ofNat DIRENT < UInt32.ofNat (DIRENT * k) := by
    rw [UInt32.lt_iff_toNat_lt, UInt32.toNat_add, hoff, hlen]
    simp only [MAXFILE, NDIRECT, NINDIRECT, BSIZE, DIRENT] at *
    omega
  have hle : ¬ (s.icache dp).size < UInt32.ofNat (DIRENT * k) := by
    rw [UInt32.lt_iff_toNat_lt, hoff]
    omega
  have hbound : DIRENT * k + DIRENT ≤ DIRENT * n := by
    rw [← Nat.mul_succ]
    exact Nat.mul_le_mul_left _ hk
  have hread := @readi_eq _ _ h hdev (UInt32.ofNat (DIRENT * k)) (UInt32.ofNat DIRENT)
    (fun pos h1 h2 _ => hn pos (by omega)) (by omega)
  rw [if_neg (by rintro (hc | hc); exacts [hle hc, hadd hc]), hoff, hlen,
    show min DIRENT ((s.icache dp).size.toNat - DIRENT * k) = DIRENT by omega] at hread
  refine ⟨_, hread, ?_, Dirent.read_congr fun j hj => ?_⟩
  · rw [Store.slice, List.length_map, List.length_range]
  · unfold cstr Store.slice
    rw [List.getD_eq_getElem?_getD, List.getElem?_map, List.getElem?_range hj]
    rfl

structure Dir (s : Fs) (dp : Slot) : Prop extends s.Open dp where
  dir : (s.icache dp).type = T_DIR
  size_le : (s.icache dp).size.toNat ≤ MAXFILE * BSIZE
  align : DIRENT ∣ (s.icache dp).size.toNat

def nentries (s : Fs) (dp : Slot) : Nat := (s.icache dp).size.toNat / DIRENT

namespace Dir

variable (h : s.Dir dp)

include h

theorem size : (s.icache dp).size.toNat = DIRENT * s.nentries dp := (Nat.mul_div_cancel' h.align).symm

theorem not_dev : (s.icache dp).type ≠ T_DEV := by
  rw [h.dir]
  decide

variable {msg : String} {p : Dirent → Bool}

theorem dirScan_step {fuel n k : Nat} (hn : s.HasEntries dp n) (hk : k < n) (hlt : k < s.nentries dp) :
    dirScan dp msg p (fuel + 1) (DIRENT * k) s =
      (if p (s.view.dirent (s.icache dp).inum k) then
        (pure (some (s.view.dirent (s.icache dp).inum k), DIRENT * k) : FsM _)
      else dirScan dp msg p fuel (DIRENT * (k + 1))) s := by
  have hsize : DIRENT * k + DIRENT ≤ (s.icache dp).size.toNat := by
    rw [h.size, ← Nat.mul_succ]
    exact Nat.mul_le_mul_left _ hlt
  obtain ⟨bs, hrun, hlen, hde⟩ := readi_dirent h.toOpen h.not_dev hn hk hsize h.size_le
  show (if DIRENT * k < (s.icache dp).size.toNat then _ else _ : FsM _) s = _
  rw [if_pos (by simp only [DIRENT] at *; omega), Exec.bind_of_ok hrun]
  dsimp only
  rw [if_neg (not_not.2 hlen), hde, Nat.mul_succ]

theorem dirScan_found {fuel a k : Nat} (hn : s.HasEntries dp (k + 1)) (hlt : k < s.nentries dp) (ha : a ≤ k)
    (hp : p (s.view.dirent (s.icache dp).inum k) = true)
    (hfirst : ∀ m, a ≤ m → m < k → p (s.view.dirent (s.icache dp).inum m) = false) (hfuel : k < a + fuel) :
    dirScan dp msg p fuel (DIRENT * a) s = (.ok (some (s.view.dirent (s.icache dp).inum k), DIRENT * k), s) := by
  induction fuel generalizing a with
  | zero => omega
  | succ fuel ih =>
    rw [h.dirScan_step hn (by omega) (by omega)]
    by_cases hk : a = k
    · rw [hk, if_pos hp]
      rfl
    · have hno := hfirst a le_rfl (by omega)
      rw [if_neg (by rw [hno]; decide)]
      exact ih (by omega) (fun m hm => hfirst m (by omega)) (by omega)

theorem dirScan_none {fuel a : Nat} (hn : s.HasEntries dp (s.nentries dp)) (ha : a ≤ s.nentries dp)
    (hno : ∀ m, a ≤ m → m < s.nentries dp → p (s.view.dirent (s.icache dp).inum m) = false)
    (hfuel : s.nentries dp < a + fuel) :
    dirScan dp msg p fuel (DIRENT * a) s = (.ok (none, DIRENT * s.nentries dp), s) := by
  induction fuel generalizing a with
  | zero => omega
  | succ fuel ih =>
    by_cases hk : a = s.nentries dp
    · show (if DIRENT * a < (s.icache dp).size.toNat then _ else _ : FsM _) s = _
      rw [if_neg (by rw [h.size, hk]; omega), hk]
      rfl
    · rw [h.dirScan_step hn (by omega) (by omega), if_neg (by rw [hno a le_rfl (by omega)]; decide)]
      exact ih (by omega) (fun m hm => hno m (by omega)) (by omega)

end Dir

end Fs

end Xv6
