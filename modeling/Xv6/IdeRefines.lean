import Xv6.Ide

/-!
# The IDE driver serves requests as the memory disk does

The invariant of `ide.c` (`Inv`) and the map from its states to those of `Sync` (`abs`). The device's work on a
request is where the call is served: from then on the abstract buffer is what `ideintr` will make of it.
-/

namespace Xv6.Ide

open Function LinkedQueue

variable {ι : Type} {s s' : St ι} {q : List (Fin NBUF)} {b : Fin NBUF} {p : ι}

/-! ### The ports -/

theorem taskFile_sector {v : Buf} (h : v.blockno < FSSIZE) : (taskFile v).sector = v.blockno := by
  simp only [FSSIZE] at h
  have hmod : ∀ x : Nat, x &&& 0xff = x % 256 := fun x => Nat.and_two_pow_sub_one_eq_mod x 8
  have hhead : v.blockno >>> 24 = 0 := by rw [Nat.shiftRight_eq_div_pow]; omega
  have hdrive : (0xe0 ||| ((v.dev &&& 1) <<< 4)) % 16 = 0 := by
    rw [Nat.and_one_is_mod]
    rcases Nat.mod_two_eq_zero_or_one v.dev with hd | hd <;> rw [hd] <;> rfl
  simp only [taskFile, TaskFile.sector, BSIZE, SECTOR_SIZE, Nat.div_self, Nat.mul_one, Nat.zero_lt_succ, hmod, hhead,
    Nat.zero_and, Nat.or_zero, hdrive, Nat.shiftRight_eq_div_pow]
  omega

theorem taskFile_disk {v : Buf} (h : v.blockno < FSSIZE) : (taskFile v).disk = v.dev % 2 := by
  simp only [FSSIZE] at h
  have hhead : v.blockno >>> 24 = 0 := by rw [Nat.shiftRight_eq_div_pow]; omega
  simp only [taskFile, TaskFile.disk, BSIZE, SECTOR_SIZE, Nat.div_self, Nat.mul_one, Nat.zero_lt_succ, hhead,
    Nat.zero_and, Nat.or_zero, Nat.and_one_is_mod]
  rcases Nat.mod_two_eq_zero_or_one v.dev with hd | hd <;> rw [hd] <;> rfl

/-! ### The invariant -/

def cmd (v : Buf) : Cmd := if v.dirty then .write else .read

structure Serving (d : Device) (v : Buf) : Prop where
  regs : d.regs = taskFile v
  state : d.busy = some (cmd v) ∧ d.irq = false ∨ d.busy = none ∧ d.irq = true
  port : v.dirty = true → d.port = v.data

def Pc.On (pc : Pc) (b : Fin NBUF) : Prop := pc = .asleep b ∨ pc = .awake b

structure Inv (s : St ι) (q : List (Fin NBUF)) : Prop where
  fault : s.fault = none
  holds : s.idequeue.Holds q
  nodup : q.Nodup
  lock : ∀ p b, (s.pc p).On b → s.lock b = some p
  caller : ∀ b ∈ q, ∃ p, (s.pc p).On b
  todo : ∀ b ∈ q, (s.buf b).synced = false ∧ (s.buf b).blockno < FSSIZE
  done : ∀ p b, (s.pc p).On b → b ∉ q → s.pc p = .awake b ∧ (s.buf b).synced = true
  idle : q = [] → s.dev.busy = none ∧ s.dev.irq = false
  serving : ∀ b, q.head? = some b → Serving s.dev (s.buf b)
  queued : s.queued = s.completed ++ q
  started : s.started = s.completed ++ q.take 1

theorem Inv.boot (h : Boot s) : Inv s [] := by
  have hpc : ∀ p b, ¬ (s.pc p).On b := fun p b hon => by
    rw [h.pc p] at hon
    rcases hon with hon | hon <;> cases hon
  refine ⟨h.fault, h.queue, .nil, fun p b hon => absurd hon (hpc p b), nofun, nofun,
    fun p b hon => absurd hon (hpc p b), fun _ => ⟨h.busy, h.irq⟩, nofun, ?_, ?_⟩
  · rw [h.queued, h.completed]
    rfl
  · rw [h.started, h.completed]
    rfl

theorem Inv.not_on (h : Inv s q) (hp : s.pc p = .idle) (hb : s.lock b = some p) (p' : ι) : ¬ (s.pc p').On b :=
  fun hon => by
    obtain rfl : p = p' := Option.some.inj (hb.symm.trans (h.lock p' b hon))
    rw [hp] at hon
    rcases hon with hon | hon <;> cases hon

theorem Inv.not_queued (h : Inv s q) (hp : s.pc p = .idle) (hb : s.lock b = some p) : b ∉ q := fun hq => by
  obtain ⟨p', hon⟩ := h.caller b hq
  exact h.not_on hp hb p' hon

theorem Inv.device (h : Inv s q) (hd : s.dev.busy.isSome = true ∨ s.dev.irq = true) : ∃ b r, q = b :: r := by
  cases q with
  | nil =>
    obtain ⟨h1, h2⟩ := h.idle rfl
    rw [h1, h2] at hd
    rcases hd with hd | hd <;> cases hd
  | cons b r => exact ⟨b, r, rfl⟩

theorem Serving.start {d : Device} (hirq : d.irq = false) (v : Buf) : Serving (d.start v) v := by
  unfold Device.start
  split
  · rename_i hd
    exact ⟨rfl, .inl ⟨by rw [cmd, if_pos hd], hirq⟩, fun _ => rfl⟩
  · rename_i hd
    exact ⟨rfl, .inl ⟨by rw [cmd, if_neg hd], hirq⟩, fun hd' => absurd hd' hd⟩

theorem Device.start_frame (d : Device) (v : Buf) : (d.start v).disk = d.disk ∧ (d.start v).irq = d.irq := by
  unfold Device.start
  split <;> exact ⟨rfl, rfl⟩

theorem idestart_eq (hn : (s.buf b).blockno < FSSIZE) (hb : s.dev.busy = none) :
    idestart s b = { s with dev := s.dev.start (s.buf b), started := s.started ++ [b] } := by
  rw [idestart, if_neg (by omega), hb]
  rfl

theorem Inv.length_le (h : Inv s q) : q.length ≤ NBUF := by
  have := h.nodup.length_le_card
  rwa [Fintype.card_fin] at this

/-! ### The abstract state -/

def unserved (d : Device) (q : List (Fin NBUF)) : List (Fin NBUF) := if d.irq then q.tail else q

/-- The buffers as they will be when `ideintr` has run. -/
def settled (d : Device) (q : List (Fin NBUF)) (buf : Fin NBUF → Buf) (b : Fin NBUF) : Buf :=
  if d.irq = true ∧ q.head? = some b then (buf b).finish d.port else buf b

def absPc (l : List (Fin NBUF)) : Pc → Sync.Pc
  | .idle => .idle
  | .asleep b | .awake b => if b ∈ l then .called b else .served b

def abs (q : List (Fin NBUF)) (s : St ι) : Sync.St ι where
  buf := settled s.dev q s.buf
  lock := s.lock
  disk := s.dev.disk
  pc p := absPc (unserved s.dev q) (s.pc p)
  queue := unserved s.dev q

theorem unserved_of_not_irq {d : Device} (h : d.irq = false) : unserved d q = q := by
  rw [unserved, h]
  rfl

theorem unserved_of_irq {d : Device} (h : d.irq = true) (r : List (Fin NBUF)) : unserved d (b :: r) = r := by
  rw [unserved, h]
  rfl

theorem settled_of_not_irq {d : Device} (h : d.irq = false) (buf : Fin NBUF → Buf) : settled d q buf = buf := by
  funext b
  exact if_neg fun hc => by
    rw [h] at hc
    cases hc.1

theorem settled_of_irq {d : Device} (h : d.irq = true) (buf : Fin NBUF → Buf) (r : List (Fin NBUF)) :
    settled d (b :: r) buf = update buf b ((buf b).finish d.port) := by
  funext b'
  unfold settled
  rcases eq_or_ne b' b with rfl | hne
  · rw [update_self]
    exact if_pos ⟨h, rfl⟩
  · rw [update_of_ne hne]
    exact if_neg fun hc => hne (Option.some.inj hc.2).symm

theorem absPc_on {l : List (Fin NBUF)} {pc : Pc} (h : pc.On b) :
    absPc l pc = if b ∈ l then .called b else .served b := by
  rcases h with rfl | rfl <;> rfl

theorem absPc_idle {l : List (Fin NBUF)} {pc : Pc} : absPc l pc = .idle ↔ pc = .idle := by
  constructor
  · intro h
    rcases pc with _ | b | b
    · rfl
    all_goals
      rw [absPc] at h
      split at h <;> cases h
  · rintro rfl
    rfl

theorem absPc_serve {r : List (Fin NBUF)} (hb : b ∉ r) (pc : Pc) :
    (if absPc (b :: r) pc = .called b then .served b else absPc (b :: r) pc) = absPc r pc := by
  rcases pc with _ | b' | b'
  · rfl
  all_goals
    simp only [absPc, List.mem_cons]
    rcases eq_or_ne b' b with rfl | hne
    · simp [hb]
    · by_cases hr : b' ∈ r <;> simp [hne, hr]

theorem wakeup_on {pc : ι → Pc} {b' : Fin NBUF} : (wakeup pc b p).On b' ↔ (pc p).On b' := by
  unfold wakeup
  split
  · rename_i hp
    rw [hp]
    refine ⟨?_, ?_⟩ <;> rintro (hon | hon) <;> cases hon
    · exact .inl rfl
    · exact .inr rfl
  · exact Iff.rfl

theorem absPc_wakeup (l : List (Fin NBUF)) (pc : ι → Pc) (p : ι) : absPc l (wakeup pc b p) = absPc l (pc p) := by
  unfold wakeup
  split
  · rename_i hp
    rw [hp]
    rfl
  · rfl

variable [DecidableEq ι]

/-- What an action is for `Sync`; the others leave the abstract state as it is. -/
def label (s : St ι) : Act ι → Option (Sync.Act ι)
  | .acquire p b => some (.acquire p b)
  | .release p b => some (.release p b)
  | .store p b v => some (.store p b v)
  | .iderw p b => some (.call p b)
  | .device => some .serve
  | .ideintr => none
  | .resume p =>
    match s.pc p with
    | .awake b => if (s.buf b).synced then some (.ret p) else none
    | _ => none
  | .wake _ => none

def Follows (t : Sync.St ι) (x : Option (Sync.Act ι)) (t' : Sync.St ι) : Prop :=
  match x with
  | none => t' = t
  | some x => Sync.step t x = some t'

/-! ### Steps -/

theorem Inv.acquire (h : Inv s q) (hp : s.pc p = .idle) (hb : s.lock b = none) :
    Inv { s with lock := update s.lock b (some p) } q ∧
      Sync.step (abs q s) (.acquire p b) = some (abs q { s with lock := update s.lock b (some p) }) := by
  refine ⟨{ h with lock := fun p' b' hon => ?_ }, ?_⟩
  · have hlock := h.lock p' b' hon
    have hne : b' ≠ b := by
      rintro rfl
      rw [hb] at hlock
      cases hlock
    show update s.lock b (some p) b' = some p'
    rw [update_of_ne hne, hlock]
  · exact if_pos ⟨absPc_idle.2 hp, hb⟩

theorem Inv.release (h : Inv s q) (hp : s.pc p = .idle) (hb : s.lock b = some p) :
    Inv { s with lock := update s.lock b none } q ∧
      Sync.step (abs q s) (.release p b) = some (abs q { s with lock := update s.lock b none }) := by
  refine ⟨{ h with lock := fun p' b' hon => ?_ }, ?_⟩
  · have hne : b' ≠ b := by
      rintro rfl
      exact h.not_on hp hb p' hon
    show update s.lock b none b' = some p'
    rw [update_of_ne hne, h.lock p' b' hon]
  · exact if_pos ⟨absPc_idle.2 hp, hb⟩

theorem settled_update {d : Device} {buf : Fin NBUF → Buf} {v : Buf} (hb : b ∉ q) :
    settled d q (update buf b v) = update (settled d q buf) b v := by
  funext b'
  unfold settled
  rcases eq_or_ne b' b with rfl | hne
  · have hhead : ¬ (d.irq = true ∧ q.head? = some b') := fun hc => hb (List.mem_of_mem_head? hc.2)
    rw [if_neg hhead, update_self, update_self]
  · rw [update_of_ne hne, update_of_ne hne]

theorem Inv.store (h : Inv s q) (hp : s.pc p = .idle) (hb : s.lock b = some p) (v : Buf) :
    Inv { s with buf := update s.buf b v } q ∧
      Sync.step (abs q s) (.store p b v) = some (abs q { s with buf := update s.buf b v }) := by
  have hq := h.not_queued hp hb
  have hsame : ∀ b' ∈ q, update s.buf b v b' = s.buf b' := fun b' hb' => update_of_ne (by
    rintro rfl
    exact hq hb') _ _
  refine ⟨{ h with todo := fun b' hb' => ?_, done := fun p' b' hon hb' => ?_, serving := fun b' hb' => ?_ }, ?_⟩
  · show (update s.buf b v b').synced = false ∧ (update s.buf b v b').blockno < FSSIZE
    rw [hsame b' hb']
    exact h.todo b' hb'
  · have hne : b' ≠ b := by
      rintro rfl
      exact h.not_on hp hb p' hon
    show _ ∧ (update s.buf b v b').synced = true
    rw [update_of_ne hne]
    exact h.done p' b' hon hb'
  · show Serving s.dev (update s.buf b v b')
    rw [hsame b' (List.mem_of_mem_head? hb')]
    exact h.serving b' hb'
  · refine (if_pos ⟨absPc_idle.2 hp, hb⟩).trans (congrArg some ?_)
    rw [abs, abs]
    dsimp only
    rw [settled_update hq]

theorem Inv.enqueue (h : Inv s q) (hp : s.pc p = .idle) (hb : s.lock b = some p) (hv : (s.buf b).synced = false)
    (hn : (s.buf b).blockno < FSSIZE) {queue : Queue (Fin NBUF)} (hqueue : queue.Holds (q ++ [b])) {d : Device}
    (hserv : ∀ b', (q ++ [b]).head? = some b' → Serving d (s.buf b')) (hdisk : d.disk = s.dev.disk)
    (hun : unserved d (q ++ [b]) = unserved s.dev q ++ [b])
    (hset : settled d (q ++ [b]) s.buf = settled s.dev q s.buf) :
    let s' : St ι := { s with
      idequeue := queue, dev := d, pc := update s.pc p (.asleep b), queued := s.queued ++ [b]
      started := s.completed ++ (q ++ [b]).take 1 }
    Inv s' (q ++ [b]) ∧ Sync.step (abs q s) (.call p b) = some (abs (q ++ [b]) s') := by
  intro s'
  have hq := h.not_queued hp hb
  have hpcs : ∀ p' b', (s'.pc p').On b' → p' = p ∧ b' = b ∨ p' ≠ p ∧ (s.pc p').On b' := fun p' b' hon => by
    rcases eq_or_ne p' p with rfl | hne
    · have hpc : s'.pc p' = .asleep b := update_self p' _ _
      rw [hpc] at hon
      rcases hon with hon | hon <;> cases hon
      exact .inl ⟨rfl, rfl⟩
    · have hpc : s'.pc p' = s.pc p' := update_of_ne hne _ _
      rw [hpc] at hon
      exact .inr ⟨hne, hon⟩
  have hmine : (s'.pc p).On b := .inl (update_self p _ _)
  refine ⟨⟨h.fault, hqueue, ?_, fun p' b' hon => ?_, fun b' hb' => ?_, fun b' hb' => ?_, fun p' b' hon hb' => ?_,
    fun hnil => by simp at hnil, hserv, ?_, rfl⟩, ?_⟩
  · exact List.Nodup.append h.nodup (List.nodup_singleton b) (by simpa using hq)
  · rcases hpcs p' b' hon with ⟨rfl, rfl⟩ | ⟨-, hon⟩
    · exact hb
    · exact h.lock p' b' hon
  · rcases List.mem_append.1 hb' with hb' | hb'
    · obtain ⟨p', hon⟩ := h.caller b' hb'
      have hne : p' ≠ p := by
        rintro rfl
        rw [hp] at hon
        rcases hon with hon | hon <;> cases hon
      refine ⟨p', ?_⟩
      show (update s.pc p (.asleep b) p').On b'
      rwa [update_of_ne hne]
    · rw [List.mem_singleton.1 hb']
      exact ⟨p, hmine⟩
  · rcases List.mem_append.1 hb' with hb' | hb'
    · exact h.todo b' hb'
    · rw [List.mem_singleton.1 hb']
      exact ⟨hv, hn⟩
  · rcases hpcs p' b' hon with ⟨rfl, rfl⟩ | ⟨hne, hon⟩
    · exact absurd (List.mem_append_right q (List.mem_singleton_self b')) hb'
    · have hpc : s'.pc p' = s.pc p' := update_of_ne hne _ _
      rw [hpc]
      exact h.done p' b' hon fun hin => hb' (List.mem_append_left _ hin)
  · show s.queued ++ [b] = s.completed ++ (q ++ [b])
    rw [h.queued, List.append_assoc]
  · refine (if_pos ⟨absPc_idle.2 hp, hb⟩).trans (congrArg some ?_)
    have hpc : (fun p' => absPc (unserved d (q ++ [b])) (s'.pc p')) =
        update (fun p' => absPc (unserved s.dev q) (s.pc p')) p (.called b) := by
      funext p'
      rw [hun]
      rcases eq_or_ne p' p with rfl | hne
      · rw [update_self, absPc_on hmine, if_pos (List.mem_append_right _ (List.mem_singleton_self b))]
      · have hpc : s'.pc p' = s.pc p' := update_of_ne hne _ _
        rw [update_of_ne hne, hpc]
        rcases hpc' : s.pc p' with _ | b' | b'
        · rfl
        all_goals
          have hne' : b' ≠ b := by
            rintro rfl
            exact h.not_on hp hb p' (by rw [hpc']; first | exact .inl rfl | exact .inr rfl)
          simp only [absPc, List.mem_append, List.mem_singleton, hne', or_false]
    exact Sync.St.ext hset.symm rfl hdisk.symm hpc.symm hun.symm

theorem Inv.iderw (h : Inv s q) (hp : s.pc p = .idle) (hb : s.lock b = some p) (hv : (s.buf b).synced = false)
    (hd : (s.buf b).dev = 0 ∨ s.havedisk1 = true) (hn : (s.buf b).blockno < FSSIZE) :
    Inv (iderw s p b) (q ++ [b]) ∧ Sync.step (abs q s) (.call p b) = some (abs (q ++ [b]) (Ide.iderw s p b)) := by
  have hq := h.not_queued hp hb
  have hnd : (q ++ [b]).Nodup := List.Nodup.append h.nodup (List.nodup_singleton b) (by simpa using hq)
  obtain ⟨queue, happend, hqueue, hhead⟩ := h.holds.append hnd h.length_le
  have hdisk : ¬ ((s.buf b).dev ≠ 0 ∧ s.havedisk1 = false) := fun hc => by
    rcases hd with hd | hd
    · exact hc.1 hd
    · rw [hd] at hc
      cases hc.2
  rw [Ide.iderw, if_neg (not_not.2 hb), hv, if_neg Bool.false_ne_true, if_neg hdisk, happend]
  dsimp only
  cases q with
  | nil =>
    -- the queue was empty: the device is started
    obtain ⟨hbusy, hirq⟩ := h.idle rfl
    have hframe := s.dev.start_frame (s.buf b)
    have hhead' : queue.head = some b := hhead
    have hst : s.started ++ [b] = s.completed ++ [b] := by rw [h.started, List.take_nil, List.append_nil]
    rw [if_pos hhead', idestart_eq (by exact hn) (by exact hbusy), wait]
    dsimp only
    rw [hv, if_neg Bool.false_ne_true, hst]
    refine h.enqueue hp hb hv hn hqueue ?_ hframe.1 ?_ ?_
    · rintro b' ⟨⟩
      exact .start hirq _
    · rw [unserved_of_not_irq hirq, unserved_of_not_irq (hframe.2.trans hirq)]
    · rw [settled_of_not_irq hirq, settled_of_not_irq (hframe.2.trans hirq)]
  | cons c r =>
    have hne : queue.head ≠ some b := fun hc => hq (by
      rw [hhead] at hc
      exact List.mem_of_mem_head? hc)
    have hst : s.started = s.completed ++ (c :: r ++ [b]).take 1 := h.started
    rw [if_neg hne, wait]
    dsimp only
    rw [hv, if_neg Bool.false_ne_true, hst]
    refine h.enqueue hp hb hv hn hqueue (fun b' hb' => h.serving b' hb') rfl ?_ rfl
    unfold unserved
    split <;> rfl

/-- What the device does for `v` is the transfer of the memory disk. -/
theorem Serving.finish {d : Device} {v : Buf} (h : Serving d v) (hn : v.blockno < FSSIZE) :
    (d.finish (cmd v)).disk = update d.disk (v.dev % 2) (update (d.disk (v.dev % 2)) v.blockno
      (Memide.transfer v (d.disk (v.dev % 2) v.blockno)).2) ∧
    v.finish (d.finish (cmd v)).port = (Memide.transfer v (d.disk (v.dev % 2) v.blockno)).1 := by
  -- the ports name the block of the buffer
  have hsector : d.regs.sector = v.blockno := by rw [h.regs, taskFile_sector hn]
  have hdisk : d.regs.disk = v.dev % 2 := by rw [h.regs, taskFile_disk hn]
  have hport := h.port
  obtain ⟨valid, dirty, dev, blockno, data⟩ := v
  cases dirty with
  | true =>
    refine ⟨?_, rfl⟩
    show update d.disk d.regs.disk (update (d.disk d.regs.disk) d.regs.sector d.port) = _
    rw [hsector, hdisk, hport rfl]
    rfl
  | false =>
    refine ⟨?_, ?_⟩
    · show d.disk = update d.disk (dev % 2) (update (d.disk (dev % 2)) blockno (d.disk (dev % 2) blockno))
      rw [update_eq_self, update_eq_self]
    · show Buf.mk true false dev blockno (d.disk d.regs.disk d.regs.sector) = _
      rw [hsector, hdisk]
      rfl

/-- The device carries out the request of the first buffer, which is when the call is served. -/
theorem Inv.device_step {c : Cmd} (h : Inv s q) (hc : s.dev.busy = some c) :
    Inv { s with dev := s.dev.finish c } q ∧
      Sync.step (abs q s) .serve = some (abs q { s with dev := s.dev.finish c }) := by
  obtain ⟨b, r, rfl⟩ := h.device (.inl (by rw [hc]; rfl))
  have hserv := h.serving b rfl
  obtain ⟨hcmd, hirq⟩ : c = cmd (s.buf b) ∧ s.dev.irq = false := by
    rcases hserv.state with ⟨hbusy, hirq⟩ | ⟨hbusy, -⟩
    · exact ⟨Option.some.inj (hc.symm.trans hbusy), hirq⟩
    · rw [hc] at hbusy
      cases hbusy
  have hframe : (s.dev.finish c).regs = s.dev.regs ∧ (s.dev.finish c).busy = none ∧ (s.dev.finish c).irq = true := by
    cases c <;> exact ⟨rfl, rfl, rfl⟩
  have hn := (h.todo b List.mem_cons_self).2
  have hnot : b ∉ r := (List.nodup_cons.1 h.nodup).1
  obtain ⟨hdisk, hbuf⟩ := hserv.finish hn
  rw [← hcmd] at hdisk hbuf
  have hport : (s.buf b).dirty = true → (s.dev.finish c).port = (s.buf b).data := fun hd => by
    rw [hcmd, cmd, if_pos hd]
    exact hserv.port hd
  refine ⟨{ h with idle := nofun, serving := ?_ }, ?_⟩
  · rintro _ ⟨⟩
    exact ⟨hframe.1.trans hserv.regs, .inr hframe.2, hport⟩
  · show Sync.step (abs (b :: r) s) .serve = _
    have hqueue : (abs (b :: r) s).queue = b :: r := unserved_of_not_irq hirq
    rw [Sync.step, hqueue]
    refine congrArg some (Sync.St.ext ?_ rfl ?_ ?_ ?_)
    · show update (settled s.dev (b :: r) s.buf) b _ = settled (s.dev.finish c) (b :: r) s.buf
      rw [settled_of_not_irq hirq, settled_of_irq hframe.2.2, hbuf]
      rw [Sync.St.transfer, abs]
      dsimp only
      rw [settled_of_not_irq hirq]
    · show ((abs (b :: r) s).transfer b).2 = (s.dev.finish c).disk
      rw [hdisk, Sync.St.transfer, abs]
      dsimp only
      rw [settled_of_not_irq hirq]
    · funext p
      show (if absPc (unserved s.dev (b :: r)) (s.pc p) = .called b then .served b
        else absPc (unserved s.dev (b :: r)) (s.pc p)) = absPc (unserved (s.dev.finish c) (b :: r)) (s.pc p)
      rw [unserved_of_not_irq hirq, unserved_of_irq hframe.2.2]
      exact absPc_serve hnot (s.pc p)
    · exact (unserved_of_irq hframe.2.2 r).symm

omit [DecidableEq ι] in
theorem Inv.dequeue {r : List (Fin NBUF)} (h : Inv s (b :: r)) (hirq : s.dev.irq = true) {d : Device}
    (hd : d.irq = false) (hdisk : d.disk = s.dev.disk) (hidle : r = [] → d.busy = none)
    (hserv : ∀ c, r.head? = some c → Serving d (s.buf c)) :
    let s' : St ι := { s with
      idequeue := s.idequeue.pop b, dev := d, buf := update s.buf b ((s.buf b).finish s.dev.port)
      pc := wakeup s.pc b, completed := s.completed ++ [b], started := s.completed ++ [b] ++ r.take 1 }
    Inv s' r ∧ abs r s' = abs (b :: r) s := by
  intro s'
  obtain ⟨hnot, hnd⟩ := List.nodup_cons.1 h.nodup
  have hbuf : ∀ b', b' ≠ b → s'.buf b' = s.buf b' := fun b' hne => update_of_ne hne _ _
  have hmem : ∀ b' ∈ r, b' ≠ b := by
    rintro b' hb' rfl
    exact hnot hb'
  refine ⟨⟨h.fault, h.holds.pop, hnd, fun p b' hon => h.lock p b' (wakeup_on.1 hon), fun b' hb' => ?_, fun b' hb' => ?_,
    fun p b' hon hb' => ?_, fun hr => ⟨hidle hr, hd⟩, fun c hc => ?_, ?_, rfl⟩, ?_⟩
  · obtain ⟨p, hon⟩ := h.caller b' (List.mem_cons_of_mem _ hb')
    exact ⟨p, wakeup_on.2 hon⟩
  · rw [hbuf b' (hmem b' hb')]
    exact h.todo b' (List.mem_cons_of_mem _ hb')
  · have hon' := wakeup_on.1 hon
    rcases eq_or_ne b' b with rfl | hne
    · refine ⟨?_, ?_⟩
      · show wakeup s.pc b' p = _
        unfold wakeup
        rcases hon' with hpc | hpc
        · rw [if_pos hpc]
        · rw [hpc]
          rfl
      · show (update s.buf b' ((s.buf b').finish s.dev.port) b').synced = true
        rw [update_self]
        rfl
    · obtain ⟨hpc, hsync⟩ := h.done p b' hon' fun hin => by
        rcases List.mem_cons.1 hin with hin | hin
        · exact hne hin
        · exact hb' hin
      rw [hbuf b' hne]
      refine ⟨?_, hsync⟩
      show wakeup s.pc b p = _
      rw [wakeup, hpc]
      rfl
  · rw [hbuf c (hmem c (List.mem_of_mem_head? hc))]
    exact hserv c hc
  · show s.queued = s.completed ++ [b] ++ r
    rw [h.queued, List.append_assoc]
    rfl
  · refine Sync.St.ext ?_ rfl hdisk ?_ ?_
    · show settled d r s'.buf = settled s.dev (b :: r) s.buf
      rw [settled_of_not_irq hd, settled_of_irq hirq]
    · funext p
      show absPc (unserved d r) (wakeup s.pc b p) = absPc (unserved s.dev (b :: r)) (s.pc p)
      rw [unserved_of_not_irq hd, unserved_of_irq hirq, absPc_wakeup]
    · show unserved d r = unserved s.dev (b :: r)
      rw [unserved_of_not_irq hd, unserved_of_irq hirq]

omit [DecidableEq ι] in
theorem Inv.ideintr (h : Inv s q) (hirq : s.dev.irq = true) :
    Inv (ideintr s) q.tail ∧ abs q.tail (Ide.ideintr s) = abs q s := by
  obtain ⟨b, r, rfl⟩ := h.device (.inr hirq)
  have hbusy : s.dev.busy = none := by
    rcases (h.serving b rfl).state with ⟨-, hno⟩ | ⟨hbusy, -⟩
    · rw [hirq] at hno
      cases hno
    · exact hbusy
  have hhead : s.idequeue.head = some b := h.holds.head
  have hnext : (s.idequeue.pop b).head = r.head? := h.holds.pop.head
  rw [Ide.ideintr]
  dsimp only
  rw [hhead]
  dsimp only
  rw [hnext]
  cases r with
  | nil =>
    have hst : s.started = s.completed ++ [b] ++ [] := h.started.trans (List.append_nil _).symm
    have hend := h.dequeue hirq (d := { s.dev with irq := false }) rfl rfl (fun _ => hbusy) nofun
    simp only [List.take_nil] at hend
    rw [← hst] at hend
    exact hend
  | cons c r =>
    -- the next request is started
    have hcb : c ≠ b := by
      rintro rfl
      exact (List.nodup_cons.1 h.nodup).1 List.mem_cons_self
    have hbuf : update s.buf b ((s.buf b).finish s.dev.port) c = s.buf c := update_of_ne hcb _ _
    have hn : (update s.buf b ((s.buf b).finish s.dev.port) c).blockno < FSSIZE := by
      rw [hbuf]
      exact (h.todo c (List.mem_cons_of_mem _ List.mem_cons_self)).2
    have hframe := Device.start_frame { s.dev with irq := false } (s.buf c)
    have hst : s.started ++ [c] = s.completed ++ [b] ++ [c] := congrArg (· ++ [c]) h.started
    dsimp only [List.head?_cons]
    rw [idestart_eq (by exact hn) (by exact hbusy)]
    dsimp only
    rw [hbuf, hst]
    refine h.dequeue hirq hframe.2 hframe.1 nofun ?_
    rintro _ ⟨⟩
    exact .start rfl _

theorem Pc.On.eq {pc : Pc} {b' : Fin NBUF} (h : pc.On b) (h' : pc.On b') : b' = b := by
  rcases h with rfl | rfl <;> rcases h' with h' | h' <;> cases h' <;> rfl

theorem Inv.repc {pc : Pc} (h : Inv s q) (hp : (s.pc p).On b) (hpc : pc.On b) (hq : b ∉ q → pc = .awake b) :
    Inv { s with pc := update s.pc p pc } q ∧ abs q { s with pc := update s.pc p pc } = abs q s := by
  have hon : ∀ p' b', (update s.pc p pc p').On b' ↔ (s.pc p').On b' := fun p' b' => by
    rcases eq_or_ne p' p with rfl | hne
    · rw [update_self]
      refine ⟨fun ho => ?_, fun ho => ?_⟩
      · rwa [hpc.eq ho]
      · rwa [hp.eq ho]
    · rw [update_of_ne hne]
  refine ⟨{ h with
    lock := fun p' b' ho => h.lock p' b' ((hon p' b').1 ho)
    caller := fun b' hb' => (h.caller b' hb').imp fun p' ho => (hon p' b').2 ho
    done := fun p' b' ho hb' => ?_ }, Sync.St.ext rfl rfl rfl ?_ rfl⟩
  · obtain ⟨hawake, hsync⟩ := h.done p' b' ((hon p' b').1 ho) hb'
    refine ⟨?_, hsync⟩
    show update s.pc p pc p' = _
    rcases eq_or_ne p' p with rfl | hne
    · rw [update_self]
      obtain rfl : b' = b := hp.eq ((hon p' b').1 ho)
      exact hq hb'
    · rw [update_of_ne hne, hawake]
  · funext p'
    show absPc _ (update s.pc p pc p') = absPc _ (s.pc p')
    rcases eq_or_ne p' p with rfl | hne
    · rw [update_self, absPc_on hpc, absPc_on hp]
    · rw [update_of_ne hne]

theorem Inv.ret (h : Inv s q) (hp : (s.pc p).On b) (hb : (s.buf b).synced = true) :
    b ∉ q ∧ Inv { s with pc := update s.pc p .idle } q ∧
      Sync.step (abs q s) (.ret p) = some (abs q { s with pc := update s.pc p .idle }) := by
  have hq : b ∉ q := fun hin => by
    rw [(h.todo b hin).1] at hb
    cases hb
  have hon : ∀ p' b', (update s.pc p .idle p').On b' → p' ≠ p ∧ (s.pc p').On b' := fun p' b' ho => by
    rcases eq_or_ne p' p with rfl | hne
    · rw [update_self] at ho
      rcases ho with ho | ho <;> cases ho
    · rw [update_of_ne hne] at ho
      exact ⟨hne, ho⟩
  refine ⟨hq, { h with
    lock := fun p' b' ho => h.lock p' b' (hon p' b' ho).2
    caller := fun b' hb' => ?_
    done := fun p' b' ho hb' => ?_ }, ?_⟩
  · obtain ⟨p', ho⟩ := h.caller b' hb'
    have hne : p' ≠ p := by
      rintro rfl
      rw [hp.eq ho] at hb'
      exact hq hb'
    refine ⟨p', ?_⟩
    show (update s.pc p .idle p').On b'
    rwa [update_of_ne hne]
  · obtain ⟨hne, ho⟩ := hon p' b' ho
    show update s.pc p .idle p' = _ ∧ _
    rw [update_of_ne hne]
    exact h.done p' b' ho hb'
  · have hpc : (abs q s).pc p = .served b := by
      show absPc (unserved s.dev q) (s.pc p) = _
      rw [absPc_on hp, if_neg]
      unfold unserved
      split
      · exact fun hin => hq (List.mem_of_mem_tail hin)
      · exact hq
    rw [Sync.step, hpc]
    refine congrArg some (Sync.St.ext rfl rfl rfl ?_ rfl)
    funext p'
    show update (abs q s).pc p .idle p' = absPc _ (update s.pc p .idle p')
    rcases eq_or_ne p' p with rfl | hne
    · rw [update_self, update_self]
      rfl
    · rw [update_of_ne hne, update_of_ne hne]
      rfl

theorem Inv.resume (h : Inv s q) (hp : s.pc p = .awake b) :
    Inv (wait s p b) q ∧ Follows (abs q s) (if (s.buf b).synced then some (.ret p) else none) (abs q (wait s p b)) := by
  unfold wait
  rcases hb : (s.buf b).synced with _ | _
  · have hq : b ∉ q → Pc.asleep b = .awake b := fun hq => by
      rw [(h.done p b (.inr hp) hq).2] at hb
      cases hb
    exact h.repc (.inr hp) (.inl rfl) hq
  · exact (h.ret (.inr hp) hb).2

/-- Every step keeps the invariant and is a step of `Sync` or none. -/
theorem Inv.step {a : Act ι} (h : Inv s q) (ha : Proper s a) (hs : step s a = some s') :
    ∃ q', Inv s' q' ∧ Follows (abs q s) (label s a) (abs q' s') := by
  unfold Ide.step at hs
  have hrun : ¬ s.fault.isSome = true := by
    rw [h.fault]
    exact Bool.false_ne_true
  rw [if_neg hrun] at hs
  cases a with
  | acquire p b =>
    obtain ⟨hc, hs⟩ := Option.ite_none_right_eq_some.1 hs
    cases hs
    exact ⟨q, h.acquire hc.1 hc.2⟩
  | release p b =>
    obtain ⟨hc, hs⟩ := Option.ite_none_right_eq_some.1 hs
    cases hs
    exact ⟨q, h.release hc.1 hc.2⟩
  | store p b v =>
    obtain ⟨hc, hs⟩ := Option.ite_none_right_eq_some.1 hs
    cases hs
    exact ⟨q, h.store hc.1 hc.2 v⟩
  | iderw p b =>
    obtain ⟨hp, hs⟩ := Option.ite_none_right_eq_some.1 hs
    cases hs
    exact ⟨q ++ [b], h.iderw hp ha.1 ha.2.1 ha.2.2.1 ha.2.2.2⟩
  | device =>
    obtain ⟨c, hc, rfl⟩ := Option.map_eq_some_iff.1 hs
    exact ⟨q, h.device_step hc⟩
  | ideintr =>
    obtain ⟨hirq, hs⟩ := Option.ite_none_right_eq_some.1 hs
    cases hs
    exact ⟨q.tail, h.ideintr hirq⟩
  | resume p =>
    dsimp only at hs
    unfold label
    split at hs
    · rename_i b hp
      cases hs
      dsimp only
      rw [hp]
      exact ⟨q, h.resume hp⟩
    · cases hs
  | wake p =>
    dsimp only at hs
    split at hs
    · rename_i b hp
      cases hs
      exact ⟨q, h.repc (.inl hp) (.inr rfl) fun _ => rfl⟩
    · cases hs

end Xv6.Ide
