import Xv6.Bio
import Xv6.Lib.Tally

/-!
# The invariant of the buffer cache

`Refs` joins reference counts, buffer locks and the processes inside a call: the count of a buffer
is the number of processes that hold it, wait for it or are about to give it back. `Data` joins
flags, lock and bytes: what a valid buffer holds is the latest version of its block, and the disk
holds the latest version of every block that no buffer has still to write.
-/

namespace Xv6.Bio

open Function DList Tally

variable {ι : Type} {s s' : St ι} {d : Nat → Block} {b c : Fin NBUF} {p q : ι} {n : Nat}

/-! ### Processes and reference counts -/

/-- Contribution of a process to `refcnt` of `b` besides holding its lock. -/
def Pc.waits (b : Fin NBUF) : Pc → Nat
  | .getting c _ => if c = b then 1 else 0
  | .releasing c => if c = b then 1 else 0
  | _ => 0

/-- The process is between `acquiresleep` of `b` and the end of `bread`. -/
def Pc.fills (b : Fin NBUF) : Pc → Prop
  | .got c _ => c = b
  | .reading c _ => c = b
  | _ => False

def Buf.held (v : Buf ι) : Nat := if v.lock.isSome then 1 else 0

structure Buf.SameData (v v' : Buf ι) : Prop where
  dev : v'.dev = v.dev
  blockno : v'.blockno = v.blockno
  valid : v'.valid = v.valid
  dirty : v'.dirty = v.dirty
  data : v'.data = v.data

theorem Buf.SameData.refl (v : Buf ι) : v.SameData v := ⟨rfl, rfl, rfl, rfl, rfl⟩

def PcOk (buf : Fin NBUF → Buf ι) (p : ι) : Pc → Prop
  | .idle => True
  | .getting b n => (buf b).dev = ROOTDEV ∧ (buf b).blockno = n
  | .got b n => ((buf b).dev = ROOTDEV ∧ (buf b).blockno = n) ∧ (buf b).lock = some p
  | .reading b n =>
    ((buf b).dev = ROOTDEV ∧ (buf b).blockno = n) ∧ (buf b).lock = some p ∧ (buf b).valid = false
  | .writing b => (buf b).lock = some p ∧ (buf b).dirty = true
  | .releasing _ => True

theorem PcOk.frame {buf buf' : Fin NBUF → Buf ι} {pc : Pc} (h : PcOk buf q pc)
    (hne : ∀ c, c ≠ b → buf' c = buf c) (hdev : (buf' b).dev = (buf b).dev)
    (hno : (buf' b).blockno = (buf b).blockno)
    (hlock : (buf b).lock = some q →
      (buf' b).lock = some q ∧ (buf' b).valid = (buf b).valid ∧ (buf' b).dirty = (buf b).dirty) :
    PcOk buf' q pc := by
  have key : ∀ c, (buf' c).dev = (buf c).dev ∧ (buf' c).blockno = (buf c).blockno ∧
      ((buf c).lock = some q →
        (buf' c).lock = some q ∧ (buf' c).valid = (buf c).valid ∧ (buf' c).dirty = (buf c).dirty) := by
    intro c
    rcases eq_or_ne c b with rfl | hc
    · exact ⟨hdev, hno, hlock⟩
    · rw [hne c hc]
      exact ⟨rfl, rfl, fun h => ⟨h, rfl, rfl⟩⟩
  rcases pc with _ | ⟨c, n⟩ | ⟨c, n⟩ | ⟨c, n⟩ | c | c
  · trivial
  · obtain ⟨h1, h2, -⟩ := key c
    exact ⟨h1.trans h.1, h2.trans h.2⟩
  · obtain ⟨h1, h2, h3⟩ := key c
    exact ⟨⟨h1.trans h.1.1, h2.trans h.1.2⟩, (h3 h.2).1⟩
  · obtain ⟨h1, h2, h3⟩ := key c
    obtain ⟨h3, h4, -⟩ := h3 h.2.1
    exact ⟨⟨h1.trans h.1.1, h2.trans h.1.2⟩, h3, h4.trans h.2.2⟩
  · obtain ⟨-, -, h3⟩ := key c
    obtain ⟨h3, -, h5⟩ := h3 h.1
    exact ⟨h3, h5.trans h.2⟩
  · trivial

theorem PcOk.frame_of_free {buf buf' : Fin NBUF → Buf ι} {pc : Pc} (h : PcOk buf q pc)
    (hne : ∀ c, c ≠ b → buf' c = buf c) (hw : pc.waits b = 0) (hlock : (buf b).lock ≠ some q) :
    PcOk buf' q pc := by
  rcases pc with _ | ⟨c, n⟩ | ⟨c, n⟩ | ⟨c, n⟩ | c | c
  · trivial
  · have hc : c ≠ b := fun hc => by simp [Pc.waits, hc] at hw
    rw [PcOk, hne c hc]; exact h
  · have hc : c ≠ b := fun hc => hlock (hc ▸ h.2)
    rw [PcOk, hne c hc]; exact h
  · have hc : c ≠ b := fun hc => hlock (hc ▸ h.2.1)
    rw [PcOk, hne c hc]; exact h
  · have hc : c ≠ b := fun hc => hlock (hc ▸ h.1)
    rw [PcOk, hne c hc]; exact h
  · trivial

structure Refs [Fintype ι] (s : St ι) : Prop where
  count : ∀ b, (s.buf b).refcnt = (s.buf b).held + tally (Pc.waits b) s.pc
  ok : ∀ p, PcOk s.buf p (s.pc p)

namespace Refs

variable [Fintype ι]

theorem free (h : Refs s) (hb : (s.buf b).refcnt = 0) :
    (s.buf b).lock = none ∧ ∀ p, (s.pc p).waits b = 0 := by
  have hc := h.count b
  rw [hb] at hc
  refine ⟨?_, eq_zero_of_tally_eq_zero (by omega)⟩
  rcases hl : (s.buf b).lock with _ | p
  · rfl
  · simp only [Buf.held, hl, Option.isSome_some, if_true] at hc
    omega

variable [DecidableEq ι]

theorem move {x : Pc} (h : Refs s) (hpc : s'.pc = update s.pc p x)
    (hne : ∀ c, c ≠ b → s'.buf c = s.buf c)
    (hw : ∀ c, c ≠ b → x.waits c = (s.pc p).waits c)
    (hcount : (s'.buf b).refcnt + (s.buf b).held + (s.pc p).waits b =
      (s.buf b).refcnt + (s'.buf b).held + x.waits b)
    (hother : ∀ q, q ≠ p → PcOk s'.buf q (s.pc q)) (hx : PcOk s'.buf p x) : Refs s' := by
  refine ⟨fun c => ?_, fun q => ?_⟩
  · have ht := tally_update (Pc.waits c) s.pc p x
    have hc := h.count c
    rw [hpc]
    rcases eq_or_ne c b with rfl | hcb
    · omega
    · rw [hne c hcb]
      have := hw c hcb
      omega
  · rw [hpc]
    rcases eq_or_ne q p with rfl | hq
    · rwa [update_self]
    · rw [update_of_ne hq]; exact hother q hq

end Refs

/-! ### Flags and bytes -/

/-- What holds of a buffer `v` with the bytes `L` of every block, `u` if it is modified and not saved. -/
structure BufOk (L : Nat → Block) (v : Buf ι) (u : Bool) : Prop where
  value : v.valid = true → v.dev = ROOTDEV ∧ v.data = L v.blockno
  dirty : v.dirty = true → v.valid = true
  unsaved : u = true → v.valid = true ∧ v.lock.isSome = true

theorem BufOk.clean_of_invalid {L : Nat → Block} {v : Buf ι} {u : Bool} (h : BufOk L v u)
    (hv : v.valid = false) : v.dirty = false := by
  rcases hd : v.dirty with _ | _
  · rfl
  · rw [h.dirty hd] at hv; cases hv

structure Data (d : Nat → Block) (s : St ι) : Prop where
  uniq : ∀ b c, (s.buf b).dev = ROOTDEV → (s.buf c).dev = ROOTDEV →
    (s.buf b).blockno = (s.buf c).blockno → b = c
  buf : ∀ b, BufOk (latest d s.mods) (s.buf b) (s.unsaved b)
  lock : ∀ b p, (s.buf b).lock = some p → (s.buf b).valid = true ∨ (s.pc p).fills b
  disk : ∀ n, (∀ b, (s.buf b).dev = ROOTDEV → (s.buf b).blockno = n → (s.buf b).valid = true →
    (s.buf b).dirty = false ∧ s.unsaved b = false) → s.disk n = latest d s.mods n

namespace Data

theorem frame (h : Data d s) (hb : ∀ c, (s.buf c).SameData (s'.buf c)) (hu : s'.unsaved = s.unsaved)
    (hm : s'.mods = s.mods) (hd : s'.disk = s.disk)
    (hlock : ∀ c q, (s'.buf c).lock = some q → (s'.buf c).valid = true ∨ (s'.pc q).fills c)
    (hun : ∀ c, s.unsaved c = true → (s'.buf c).lock.isSome = true) : Data d s' := by
  refine ⟨fun b c h1 h2 h3 => ?_, fun c => ⟨?_, ?_, ?_⟩, hlock, fun n hn => ?_⟩
  · rw [(hb b).dev] at h1
    rw [(hb c).dev] at h2
    rw [(hb b).blockno, (hb c).blockno] at h3
    exact h.uniq b c h1 h2 h3
  · rw [(hb c).valid, (hb c).dev, (hb c).data, (hb c).blockno, hm]; exact (h.buf c).value
  · rw [(hb c).valid, (hb c).dirty]; exact (h.buf c).dirty
  · rw [(hb c).valid, hu]
    exact fun hc => ⟨((h.buf c).unsaved hc).1, hun c hc⟩
  · rw [hm, hd]
    refine h.disk n fun b h1 h2 h3 => ?_
    have := hn b ((hb b).dev.trans h1) ((hb b).blockno.trans h2) ((hb b).valid.trans h3)
    rwa [(hb b).dirty, hu] at this

/-- A step that changes flags, bytes and the record of the valid or freshly read buffer `b` only.
The versions of its block and the disk change at most at the block of `b`. -/
theorem touch (h : Data d s) (hne : ∀ c, c ≠ b → s'.buf c = s.buf c ∧ s'.unsaved c = s.unsaved c)
    (hroot : (s.buf b).dev = ROOTDEV) (hdev : (s'.buf b).dev = (s.buf b).dev)
    (hno : (s'.buf b).blockno = (s.buf b).blockno)
    (hm : ∀ m, m ≠ (s.buf b).blockno → latest d s'.mods m = latest d s.mods m)
    (hd : ∀ m, m ≠ (s.buf b).blockno → s'.disk m = s.disk m)
    (hlock : ∀ c q, (s'.buf c).lock = some q → (s'.buf c).valid = true ∨ (s'.pc q).fills c)
    (hok : BufOk (latest d s'.mods) (s'.buf b) (s'.unsaved b)) (hvalid : (s'.buf b).valid = true)
    (hclean : (s'.buf b).dirty = false → s'.unsaved b = false →
      s'.disk (s.buf b).blockno = latest d s'.mods (s.buf b).blockno) : Data d s' := by
  have key : ∀ c, (s'.buf c).dev = (s.buf c).dev ∧ (s'.buf c).blockno = (s.buf c).blockno := by
    intro c
    rcases eq_or_ne c b with rfl | hc
    · exact ⟨hdev, hno⟩
    · rw [(hne c hc).1]; exact ⟨rfl, rfl⟩
  refine ⟨fun a c h1 h2 h3 => ?_, fun c => ?_, hlock, fun m hm' => ?_⟩
  · rw [(key a).1] at h1
    rw [(key c).1] at h2
    rw [(key a).2, (key c).2] at h3
    exact h.uniq a c h1 h2 h3
  · rcases eq_or_ne c b with rfl | hc
    · exact hok
    · obtain ⟨h1, h2⟩ := hne c hc
      rw [h1, h2]
      refine ⟨fun hv => ?_, (h.buf c).dirty, (h.buf c).unsaved⟩
      obtain ⟨h3, h4⟩ := (h.buf c).value hv
      refine ⟨h3, h4.trans (hm _ fun heq => hc ?_).symm⟩
      exact h.uniq c b h3 hroot heq
  · rcases eq_or_ne m (s.buf b).blockno with rfl | hmb
    · obtain ⟨h1, h2⟩ := hm' b (hdev.trans hroot) hno hvalid
      exact hclean h1 h2
    · rw [hm m hmb, hd m hmb]
      refine h.disk m fun c h1 h2 h3 => ?_
      have hc : c ≠ b := fun hc => hmb (by rw [← h2, hc])
      obtain ⟨h4, h5⟩ := hne c hc
      have := hm' c (by rw [h4, h1]) (by rw [h4, h2]) (by rw [h4, h3])
      rwa [h4, h5] at this

theorem reassign (h : Data d s) (hne : ∀ c, c ≠ b → s'.buf c = s.buf c) (hu : s'.unsaved = s.unsaved)
    (hm : s'.mods = s.mods) (hd : s'.disk = s.disk)
    (hfills : ∀ c q, (s.pc q).fills c → (s'.pc q).fills c)
    (hclean : (s.buf b).dirty = false) (hun : s.unsaved b = false)
    (hno : (s'.buf b).blockno = n) (hvalid : (s'.buf b).valid = false)
    (hdirty : (s'.buf b).dirty = false) (hlock : (s'.buf b).lock = none)
    (hnew : ∀ c, (s.buf c).dev = ROOTDEV → (s.buf c).blockno ≠ n) : Data d s' := by
  refine ⟨fun a c h1 h2 h3 => ?_, fun c => ?_, fun c q hl => ?_, fun m hm' => ?_⟩
  · by_contra hac
    rcases eq_or_ne a b with rfl | ha
    · rw [hne c (Ne.symm hac)] at h2 h3
      exact hnew c h2 (h3.symm.trans hno)
    rw [hne a ha] at h1 h3
    rcases eq_or_ne c b with rfl | hc
    · exact hnew a h1 (h3.trans hno)
    rw [hne c hc] at h2 h3
    exact hac (h.uniq a c h1 h2 h3)
  · rw [hu, hm]
    rcases eq_or_ne c b with rfl | hc
    · refine ⟨fun hv => ?_, fun hv => ?_, fun hv => ?_⟩
      · rw [hvalid] at hv; cases hv
      · rw [hdirty] at hv; cases hv
      · rw [hun] at hv; cases hv
    · rw [hne c hc]; exact h.buf c
  · have hc : c ≠ b := fun hc => by rw [hc, hlock] at hl; cases hl
    rw [hne c hc] at hl ⊢
    exact (h.lock c q hl).imp_right (hfills c q)
  · rw [hm, hd]
    refine h.disk m fun c h1 h2 h3 => ?_
    rcases eq_or_ne c b with rfl | hc
    · exact ⟨hclean, hun⟩
    · have := hm' c
      rw [hne c hc, hu] at this
      exact this h1 h2 h3

end Data

structure Inv [Fintype ι] (d : Nat → Block) (s : St ι) : Prop where
  list : ∃ l, s.links.IsList l ∧ l.Perm (List.finRange NBUF)
  refs : Refs s
  data : Data d s

theorem latest_cons (v : Block) (mods : List (Nat × Block)) :
    latest d ((n, v) :: mods) = update (latest d mods) n v := by
  funext m
  rcases eq_or_ne m n with rfl | hm
  · simp [latest]
  · rw [update_of_ne hm, latest, List.lookup_cons, beq_eq_false_iff_ne.2 hm]
    rfl

end Xv6.Bio
