import Xv6.Lib.Tally
import Xv6.LogDisk

/-!
# The invariant of the redo log

Between two commits the home blocks on disk have the contents `X` of all groups committed so far and
`bread` sees `X` with the group being formed applied (`Quiet`). During a commit of the group `us` the
disk goes through the shapes of `CommitDisk`: up to the write of the header it still recovers to `X`,
from then on to `apply X us`. During `recover_from_log` it recovers to the same contents at every
point (`RecoverDisk`).
-/

namespace Xv6.Log

open Function (update update_self update_of_ne)
open Tally

variable {ι : Type} {g : Geometry} {X : Nat → Block} {s : St ι}

/-! ### Buffers -/

structure Coherent (g : Geometry) (s : St ι) : Prop where
  clean : ∀ b, s.dirty b = false → s.holder b = none → s.bread b = s.disk b
  log : ∀ b, ¬ g.Home b → s.dirty b = false ∧ s.holder b = none

theorem bread_bwrite (b : Nat) (v : Block) : (s.bwrite b v).bread = update s.bread b v := by
  funext c
  by_cases h : c = b
  · subst h; simp [St.bread, St.bwrite]
  · simp [St.bread, St.bwrite, update_of_ne h]

theorem disk_bwrite (b : Nat) (v : Block) : (s.bwrite b v).disk = update s.disk b v := rfl

theorem bwrite_home {b c : Nat} {v : Block} (hc : g.Home c) (hb : ¬ g.Home b) :
    (s.bwrite b v).disk c = s.disk c ∧ (s.bwrite b v).bread c = s.bread c := by
  have hne := g.ne_of_home hc hb
  rw [disk_bwrite, bread_bwrite, update_of_ne hne, update_of_ne hne]
  exact ⟨rfl, rfl⟩

theorem bread_fetch (b : Nat) :
    ({ s with cache := update s.cache b (some (s.bread b)) } : St ι).bread = s.bread := by
  funext c
  by_cases h : c = b
  · subst h; simp [St.bread]
  · simp [St.bread, update_of_ne h]

namespace Coherent

theorem bwrite (h : Coherent g s) (b : Nat) (v : Block) : Coherent g (s.bwrite b v) := by
  refine ⟨fun c hd hh => ?_, fun c hc => ⟨?_, (h.log c hc).2⟩⟩
  · rw [bread_bwrite]
    by_cases hcb : c = b
    · subst hcb; simp [St.bwrite]
    · simp only [St.bwrite, update_of_ne hcb] at hd ⊢
      exact h.clean c hd hh
  · by_cases hcb : c = b
    · subst hcb; simp [St.bwrite]
    · simpa [St.bwrite, update_of_ne hcb] using (h.log c hc).1

theorem setPc [DecidableEq ι] (h : Coherent g s) (p : ι) (pc : Pc) : Coherent g (s.setPc p pc) :=
  ⟨h.clean, h.log⟩

theorem bread_log (h : Coherent g s) {b : Nat} (hb : ¬ g.Home b) : s.bread b = s.disk b :=
  h.clean b (h.log b hb).1 (h.log b hb).2

theorem bread_evict (h : Coherent g s) {b : Nat} (hd : s.dirty b = false) (hh : s.holder b = none) :
    ({ s with cache := update s.cache b none } : St ι).bread = s.bread := by
  funext c
  by_cases hcb : c = b
  · subst hcb
    rw [h.clean c hd hh]
    simp [St.bread]
  · simp [St.bread, update_of_ne hcb]

end Coherent

/-! ### The in-memory header and the group -/

/-- `lh` lists the blocks of the updates `us`, and its size fits the log. -/
structure Lists (g : Geometry) (lh : List Nat) (us : List Update) : Prop where
  mem : ∀ b, b ∈ lh ↔ b ∈ us.map (·.blockno)
  len : lh.length ≤ LOGSIZE
  size : lh.length ≤ g.size - 1
  home : ∀ b ∈ lh, g.Home b ∧ b < 2 ^ 32

theorem Lists.nil : Lists g [] [] := ⟨by simp, by simp, by simp, by simp⟩

/-- Absorption: a block is listed once however often it is logged. -/
theorem Lists.logWrite {lh : List Nat} {us : List Update} (h : Lists g lh us) {u : Update}
    (hlen : ¬ (lh.length ≥ LOGSIZE ∨ lh.length ≥ g.size - 1)) (hb : g.Home u.blockno ∧ u.blockno < 2 ^ 32) :
    Lists g (if lh.idxOf u.blockno = lh.length then lh ++ [u.blockno] else lh.set (lh.idxOf u.blockno) u.blockno)
      (us ++ [u]) := by
  have hmem : ∀ c, c ∈ (us ++ [u]).map (·.blockno) ↔ c ∈ lh ∨ c = u.blockno := by
    intro c; rw [h.mem c]; simp
  split
  · refine ⟨fun c => by rw [hmem c]; simp, ?_, ?_, fun c hc => ?_⟩
    · rw [List.length_append, List.length_singleton]; omega
    · rw [List.length_append, List.length_singleton]; omega
    · rcases List.mem_append.1 hc with hc | hc
      · exact h.home c hc
      · rw [List.mem_singleton.1 hc]; exact hb
  · rename_i hne
    have hin : u.blockno ∈ lh := by
      by_contra hnot
      exact hne (List.idxOf_eq_length hnot)
    have hset : lh.set (lh.idxOf u.blockno) u.blockno = lh := by
      have hlt := List.idxOf_lt_length_of_mem hin
      conv_rhs => rw [← List.set_getElem_self hlt, List.getElem_idxOf hlt]
    rw [hset]
    refine ⟨fun c => ?_, h.len, h.size, h.home⟩
    rw [hmem c]
    exact ⟨.inl, fun hc => hc.elim id fun hc => hc ▸ hin⟩

/-! ### Between commits, during a commit, during recovery -/

structure Quiet (g : Geometry) (X : Nat → Block) (s : St ι) : Prop where
  header : readHeader (s.disk g.start) = []
  disk : ∀ b, g.Home b → s.disk b = X b
  view : ∀ b, g.Home b → s.holder b = none → s.bread b = apply X s.forming b
  lists : Lists g s.lh s.forming

/-- The disk and the in-memory header at each point of `commit`, for committed contents `X` and
contents `Y` with the group applied. -/
def CommitDisk (g : Geometry) (X Y : Nat → Block) (s : St ι) (us : List Update) : CommitPc → Prop
  | .writeLog t => Lists g s.lh us ∧ readHeader (s.disk g.start) = [] ∧ (∀ b, g.Home b → s.disk b = X b) ∧
      ∀ i b, i < t → s.lh[i]? = some b → s.disk (g.start + i + 1) = Y b
  | .writeHead => Lists g s.lh us ∧ readHeader (s.disk g.start) = [] ∧ (∀ b, g.Home b → s.disk b = X b) ∧
      ∀ i b, s.lh[i]? = some b → s.disk (g.start + i + 1) = Y b
  | .install t => readHeader (s.disk g.start) = s.lh ∧ Recovers g s.disk Y ∧
      ∀ i b, i < t → s.lh[i]? = some b → s.disk b = Y b
  | .clearHead => s.lh = [] ∧ Recovers g s.disk Y ∧ ∀ b, g.Home b → s.disk b = Y b
  | .done => s.lh = [] ∧ readHeader (s.disk g.start) = [] ∧ ∀ b, g.Home b → s.disk b = Y b

structure Committing (g : Geometry) (X : Nat → Block) (us : List Update) (s : St ι) (c : CommitPc) :
    Prop where
  free : ∀ b, s.holder b = none
  forming : s.forming = []
  view : ∀ b, g.Home b → s.bread b = apply X us b
  disk : CommitDisk g X (apply X us) s us c

/-- The disk at each point of `recover_from_log`. -/
def RecoverDisk (g : Geometry) (X : Nat → Block) (s : St ι) : RecoverPc → Prop
  | .readHead => Recovers g s.disk X
  | .install t => readHeader (s.disk g.start) = s.lh ∧ Recovers g s.disk X ∧
      ∀ i b, i < t → s.lh[i]? = some b → s.disk b = X b
  | .clearHead => s.lh = [] ∧ Recovers g s.disk X ∧ ∀ b, g.Home b → s.disk b = X b

/-- Wherever a commit is, the disk recovers to the contents before the group or after it. -/
theorem Committing.recovers {us : List Update} {c : CommitPc} (h : Committing g X us s c) :
    Recovers g s.disk X ∨ Recovers g s.disk (apply X us) := by
  have hd := h.disk
  cases c with
  | writeLog t => exact .inl (.of_empty hd.2.1 hd.2.2.1)
  | writeHead => exact .inl (.of_empty hd.2.1 hd.2.2.1)
  | install t => exact .inr hd.2.1
  | clearHead => exact .inr hd.2.1
  | done => exact .inr (.of_empty hd.2.1 hd.2.2)

theorem RecoverDisk.recovers {c : RecoverPc} (h : RecoverDisk g X s c) : Recovers g s.disk X := by
  cases c with
  | readHead => exact h
  | install t => exact h.2.1
  | clearHead => exact h.2.1

/-! ### Installing -/

theorem install_round {Y : Nat → Block} (hco : Coherent g s) {t b : Nat}
    (hh : readHeader (s.disk g.start) = s.lh) (hr : Recovers g s.disk Y)
    (hdone : ∀ i c, i < t → s.lh[i]? = some c → s.disk c = Y c) (hb : s.lh[t]? = some b) :
    readHeader ((s.installTrans g t b).disk g.start) = s.lh ∧ Recovers g (s.installTrans g t b).disk Y ∧
      (∀ i c, i < t + 1 → s.lh[i]? = some c → (s.installTrans g t b).disk c = Y c) ∧
      (s.installTrans g t b).bread = update s.bread b (Y b) := by
  have hlt : t < s.lh.length := (List.getElem?_eq_some_iff.1 hb).1
  have hsize := hr.size
  rw [hh] at hsize
  have hhome : g.Home b := hr.home b (hh ▸ List.mem_of_getElem? hb)
  have hval : s.bread (g.start + t + 1) = Y b := by
    rw [hco.bread_log (g.not_home_log (by omega)), hr.logged t b (hh ▸ hb)]
  have hdisk : (s.installTrans g t b).disk = update s.disk b (Y b) := by
    rw [St.installTrans, hval, disk_bwrite]
  have hne : ∀ c, ¬ g.Home c → c ≠ b := fun c hc => (g.ne_of_home hhome hc).symm
  refine ⟨?_, ?_, fun i c hi hc => ?_, ?_⟩
  · rw [hdisk, update_of_ne (hne _ g.not_home_start), hh]
  · refine hr.install (fun c hc => ?_) fun c hc => ?_
    · rw [hdisk, update_of_ne (hne c hc)]
    · rw [hdisk]
      by_cases hcb : c = b
      · subst hcb; exact .inr (update_self ..)
      · exact .inl (update_of_ne hcb ..)
  · rw [hdisk]
    by_cases hcb : c = b
    · subst hcb; rw [update_self]
    · rw [update_of_ne hcb]
      refine hdone i c (Nat.lt_of_le_of_ne (by omega) ?_) hc
      rintro rfl
      rw [hb] at hc
      exact hcb (Option.some.inj hc).symm
  · rw [St.installTrans, bread_bwrite, hval]

theorem install_end {Y : Nat → Block} {t : Nat} (hh : readHeader (s.disk g.start) = s.lh)
    (hr : Recovers g s.disk Y) (hdone : ∀ i c, i < t → s.lh[i]? = some c → s.disk c = Y c)
    (ht : s.lh[t]? = none) : ∀ b, g.Home b → s.disk b = Y b := by
  intro b hb
  by_cases hmem : b ∈ s.lh
  · obtain ⟨i, hi⟩ := List.mem_iff_getElem?.1 hmem
    have h1 := (List.getElem?_eq_some_iff.1 hi).1
    have h2 := List.getElem?_eq_none_iff.1 ht
    exact hdone i b (by omega) hi
  · exact hr.rest b hb (hh ▸ hmem)

theorem writeHead_empty (hlh : s.lh = []) :
    readHeader ((s.writeHead g).disk g.start) = [] ∧
      (∀ b, g.Home b → (s.writeHead g).disk b = s.disk b ∧ (s.writeHead g).bread b = s.bread b) := by
  refine ⟨?_, fun b hb => bwrite_home hb g.not_home_start⟩
  rw [St.writeHead, hlh, disk_bwrite, update_self]
  exact readHeader_putHeader _ (by simp) (by simp)

end Xv6.Log
