import Xv6.Pipe

/-!
# A pipe is a FIFO byte stream

`Fifo pipe accepted taken` ties the ring to the history: `taken` (the bytes already copied out, in
order) is a prefix of `accepted`, the machine counters are the two lengths modulo `2 ^ 32`, and the
slots between them hold the rest of `accepted`. The bytes copied out are the ones already returned
followed by the ones in the buffer of the reader that holds the lock (`St.inHand`).
-/

namespace Xv6.Pipe

open RingBuffer

variable {ι : Type}

def Pc.got : Pc → List UInt8
  | .readCopy _ got => got
  | _ => []

/-- Control states in which the process holds `p->lock`. -/
def Pc.inside : Pc → Bool
  | .writeLoop .. | .readWait _ | .readCopy .. => true
  | _ => false

/-- The bytes taken out of the ring by the reader that holds the lock, not yet returned. -/
def St.inHand (s : St ι) : List UInt8 :=
  match s.lock with
  | none => []
  | some p => (s.pc p).got

theorem St.inHand_eq {s : St ι} {p : ι} (hl : s.lock = some p) : s.inHand = (s.pc p).got := by
  rw [inHand, hl]

def contents (p : Pipe) : List UInt8 :=
  (List.range (p.nwrite - p.nread).toNat).map fun k => p.data (slot PIPESIZE (p.nread + UInt32.ofNat k))

theorem pipesize_dvd : PIPESIZE ∣ 2 ^ 32 := ⟨2 ^ 23, rfl⟩

theorem pipesize_lt : PIPESIZE < 2 ^ 32 := by decide

/-- The ring holds the accepted bytes that have not been taken. -/
structure Fifo (p : Pipe) (accepted taken : List UInt8) : Prop where
  isPrefix : taken <+: accepted
  room : accepted.length ≤ taken.length + PIPESIZE
  nread : p.nread = UInt32.ofNat taken.length
  nwrite : p.nwrite = UInt32.ofNat accepted.length
  window : Window p.data taken.length accepted.length accepted

namespace Fifo

variable {p : Pipe} {accepted taken : List UInt8}

theorem empty_iff (h : Fifo p accepted taken) : p.nread = p.nwrite ↔ taken.length = accepted.length := by
  rw [h.nread, h.nwrite]
  exact ofNat_eq_iff h.isPrefix.length_le h.room pipesize_lt

theorem full_iff (h : Fifo p accepted taken) :
    p.nwrite = p.nread + UInt32.ofNat PIPESIZE ↔ accepted.length = taken.length + PIPESIZE := by
  rw [h.nread, h.nwrite]
  exact ofNat_eq_add_cap_iff h.isPrefix.length_le h.room pipesize_lt

theorem count (h : Fifo p accepted taken) :
    (p.nwrite - p.nread).toNat = accepted.length - taken.length := by
  rw [h.nread, h.nwrite]
  exact toNat_sub_ofNat h.isPrefix.length_le h.room pipesize_lt

theorem push (h : Fifo p accepted taken) (hf : p.nwrite ≠ p.nread + UInt32.ofNat PIPESIZE) (b : UInt8) :
    Fifo { p with data := Function.update p.data (slot PIPESIZE p.nwrite) b, nwrite := p.nwrite + 1 }
      (accepted ++ [b]) taken := by
  have hlt : accepted.length < taken.length + PIPESIZE :=
    Nat.lt_of_le_of_ne h.room (fun he => hf (h.full_iff.2 he))
  have hw := h.window.push rfl hlt b
  refine ⟨h.isPrefix.trans (List.prefix_append _ _), ?_, h.nread, ?_, ?_⟩
  · rw [List.length_append, List.length_singleton]; omega
  · rw [h.nwrite, ofNat_succ, List.length_append, List.length_singleton]
  · rw [h.nwrite, slot_ofNat pipesize_dvd, List.length_append, List.length_singleton]
    exact hw

theorem pop (h : Fifo p accepted taken) (he : p.nread ≠ p.nwrite) :
    Fifo { p with nread := p.nread + 1 } accepted
      (taken ++ [p.data (slot PIPESIZE p.nread)]) := by
  have hlt : taken.length < accepted.length :=
    Nat.lt_of_le_of_ne h.isPrefix.length_le (fun e => he (h.empty_iff.2 e))
  have hb : p.data (slot PIPESIZE p.nread) = accepted[taken.length] := by
    have := h.window.head hlt
    rw [List.getElem?_eq_getElem hlt] at this
    rw [h.nread, slot_ofNat pipesize_dvd]
    exact (Option.some.inj this).symm
  have hlen : (taken ++ [p.data (slot PIPESIZE p.nread)]).length = taken.length + 1 := by simp
  refine ⟨?_, ?_, ?_, h.nwrite, ?_⟩
  · have htake : taken = accepted.take taken.length := List.prefix_iff_eq_take.1 h.isPrefix
    have hsucc : accepted.take (taken.length + 1) = taken ++ [accepted[taken.length]] := by
      rw [List.take_succ_eq_append_getElem hlt, ← htake]
    rw [hb, ← hsucc]
    exact List.take_prefix _ _
  · have := h.room; rw [hlen]; omega
  · rw [hlen, ← ofNat_succ, ← h.nread]
  · rw [hlen]; exact h.window.pop

theorem contents_eq (h : Fifo p accepted taken) : contents p = accepted.drop taken.length := by
  rw [contents, h.window.drop_eq rfl, h.count]
  apply List.map_congr_left
  intro k _
  rw [h.nread, ← UInt32.ofNat_add, slot_ofNat pipesize_dvd]

/-- Every accepted byte has been taken or is still in the ring, in order and once. -/
theorem split (h : Fifo p accepted taken) : accepted = taken ++ contents p := by
  rw [h.contents_eq]
  exact (List.prefix_iff_eq_append.1 h.isPrefix).symm

end Fifo

structure Inv (s : St ι) : Prop where
  holder : ∀ p, s.lock = some p ↔ (s.pc p).inside = true
  fifo : Fifo s.pipe s.accepted (s.returned ++ s.inHand)
  -- a reader that has copied nothing yet saw a byte or a closed write end, and holds the lock
  start : ∀ p n, s.pc p = .readCopy n [] → s.empty = false ∨ s.pipe.writeopen = false

/-! ### Control states under wakeups -/

theorem inside_awake (pc : Pc) : pc.awake.inside = pc.inside := by cases pc <;> rfl

theorem got_awake (pc : Pc) : pc.awake.got = pc.got := by cases pc <;> rfl

theorem awake_readCopy {pc : Pc} {n : Int} {got : List UInt8} :
    pc.awake = .readCopy n got ↔ pc = .readCopy n got := by cases pc <;> simp [Pc.awake]

namespace St

variable (s : St ι) (chan : Chan)

theorem wakeup_pc (q : ι) : (s.wakeup chan).pc q = s.pc q ∨ (s.wakeup chan).pc q = (s.pc q).awake := by
  simp only [wakeup]; split <;> simp

theorem inside_wakeup (q : ι) : ((s.wakeup chan).pc q).inside = (s.pc q).inside := by
  rcases s.wakeup_pc chan q with h | h <;> rw [h]
  exact inside_awake _

theorem got_wakeup (q : ι) : ((s.wakeup chan).pc q).got = (s.pc q).got := by
  rcases s.wakeup_pc chan q with h | h <;> rw [h]
  exact got_awake _

theorem wakeup_readCopy {q : ι} {n : Int} {got : List UInt8} :
    (s.wakeup chan).pc q = .readCopy n got ↔ s.pc q = .readCopy n got := by
  rcases s.wakeup_pc chan q with h | h <;> rw [h]
  exact awake_readCopy

end St

namespace Inv

variable {s : St ι} {p : ι}

theorem outside (h : Inv s) (hl : s.lock = none) (q : ι) : (s.pc q).inside = false := by
  by_contra hq
  have := (h.holder q).2 (by simpa using hq)
  simp [hl] at this

theorem outside_of_ne (h : Inv s) (hl : s.lock = some p) {q : ι} (hq : q ≠ p) :
    (s.pc q).inside = false := by
  by_contra hin
  have := (h.holder q).2 (by simpa using hin)
  rw [hl] at this
  exact hq (Option.some.inj this).symm

theorem wakeup (h : Inv s) (chan : Chan) : Inv (s.wakeup chan) := by
  refine ⟨fun q => ?_, ?_, fun q n hq => ?_⟩
  · rw [s.inside_wakeup]; exact h.holder q
  · have : (s.wakeup chan).inHand = s.inHand := by
      simp only [St.inHand]
      show (match s.lock with | none => [] | some q => ((s.wakeup chan).pc q).got) = _
      cases s.lock with
      | none => rfl
      | some q => exact s.got_wakeup chan q
    show Fifo s.pipe s.accepted (s.returned ++ (s.wakeup chan).inHand)
    rw [this]; exact h.fifo
  · exact h.start q n ((s.wakeup_readCopy chan).1 hq)

variable [DecidableEq ι]

theorem setPc_outside (h : Inv s) (pc : Pc) (hin : (s.pc p).inside = false) (hpc : pc.inside = false) :
    Inv (s.setPc p pc) := by
  have hne : ∀ q, s.lock = some q → q ≠ p := by
    rintro q hq rfl
    rw [(h.holder q).1 hq] at hin; cases hin
  refine ⟨fun q => ?_, ?_, fun q n hq => ?_⟩
  · by_cases hqp : q = p
    · subst hqp
      simp only [St.setPc, Function.update_self, hpc]
      rw [h.holder q, hin]
    · simpa [St.setPc, Function.update_of_ne hqp] using h.holder q
  · have : (s.setPc p pc).inHand = s.inHand := by
      simp only [St.inHand, St.setPc]
      cases hl : s.lock with
      | none => rfl
      | some q => simp [Function.update_of_ne (hne q hl)]
    show Fifo s.pipe s.accepted (s.returned ++ (s.setPc p pc).inHand)
    rw [this]; exact h.fifo
  · by_cases hqp : q = p
    · subst hqp
      simp only [St.setPc, Function.update_self] at hq
      rw [hq] at hpc; cases hpc
    · simp only [St.setPc, Function.update_of_ne hqp] at hq
      exact h.start q n hq

theorem acquire {s' : St ι} (h : Inv s) {pc : Pc} (ha : s.acquire p pc = some s') (hin : pc.inside = true)
    (hgot : pc.got = []) (hcopy : ∀ n, pc ≠ .readCopy n []) : Inv s' := by
  unfold St.acquire at ha
  cases hl : s.lock with
  | some q => rw [hl] at ha; cases ha
  | none =>
    rw [hl] at ha; cases ha
    have hf := h.fifo
    rw [St.inHand, hl] at hf
    refine ⟨fun q => ?_, ?_, fun q n hq => ?_⟩
    · by_cases hqp : q = p
      · subst hqp; simp [St.setPc, hin]
      · simp [St.setPc, Function.update_of_ne hqp, h.outside hl q, Ne.symm hqp]
    · simpa [St.setPc, St.inHand, hgot] using hf
    · by_cases hqp : q = p
      · subst hqp
        simp only [St.setPc, Function.update_self] at hq
        exact absurd hq (hcopy n)
      · simp only [St.setPc, Function.update_of_ne hqp] at hq
        have := h.outside hl q
        rw [hq] at this; cases this

theorem advance (h : Inv s) (hl : s.lock = some p) {pc : Pc} {pipe : Pipe} {accepted : List UInt8}
    (hin : pc.inside = true) (hf : Fifo pipe accepted (s.returned ++ pc.got))
    (hstart : ∀ n, pc = .readCopy n [] → (pipe.nread == pipe.nwrite) = false ∨ pipe.writeopen = false) :
    Inv ({ s with pipe := pipe, accepted := accepted }.setPc p pc) := by
  refine ⟨fun q => ?_, ?_, fun q n hq => ?_⟩
  · by_cases hqp : q = p
    · subst hqp; simp [St.setPc, hin, hl]
    · simp [St.setPc, Function.update_of_ne hqp, h.outside_of_ne hl hqp, hl, Ne.symm hqp]
  · simpa [St.setPc, St.inHand, hl] using hf
  · by_cases hqp : q = p
    · subst hqp
      simp only [St.setPc, Function.update_self] at hq
      exact hstart n hq
    · simp only [St.setPc, Function.update_of_ne hqp] at hq
      have := h.outside_of_ne hl hqp
      rw [hq] at this; cases this

theorem leave (h : Inv s) (hl : s.lock = some p) {pc : Pc} (hpc : pc.inside = false)
    (returned : List UInt8) (hret : returned = s.returned ++ (s.pc p).got) :
    Inv { (s.setPc p pc).release with returned := returned } := by
  have hf := h.fifo
  rw [St.inHand_eq hl] at hf
  have hout : ∀ q, ((s.setPc p pc).pc q).inside = false := by
    intro q
    by_cases hqp : q = p
    · subst hqp; simp [St.setPc, hpc]
    · simpa [St.setPc, Function.update_of_ne hqp] using h.outside_of_ne hl hqp
  refine ⟨fun q => ?_, ?_, fun q n hq => ?_⟩
  · simpa [St.release] using hout q
  · subst hret
    simpa [St.setPc, St.inHand, St.release] using hf
  · have := hout q
    rw [show (s.setPc p pc).pc q = .readCopy n [] from hq] at this
    cases this

theorem leave_nil (h : Inv s) (hl : s.lock = some p) {pc : Pc} (hpc : pc.inside = false)
    (hgot : (s.pc p).got = []) : Inv (s.setPc p pc).release := by
  have := h.leave hl hpc s.returned (by rw [hgot, List.append_nil])
  exact this

theorem writeStep (h : Inv s) {addr : Nat → UInt8} {n : Int} {i : Nat} (hpc : s.pc p = .writeLoop addr n i) :
    Inv (writeStep s p addr n i).2 := by
  have hl : s.lock = some p := (h.holder p).2 (by rw [hpc]; rfl)
  have hgot : (s.pc p).got = [] := by rw [hpc]; rfl
  have hwgot : ((s.wakeup .nread).pc p).got = [] := by rw [s.got_wakeup, hgot]
  unfold Pipe.writeStep
  split
  · split
    · split
      · exact h.leave_nil hl rfl hgot
      · exact (h.wakeup .nread).leave_nil hl rfl hwgot
    · rename_i hnf
      have hne : s.pipe.nwrite ≠ s.pipe.nread + UInt32.ofNat PIPESIZE := by
        simpa [St.full] using hnf
      have hf := h.fifo
      rw [St.inHand_eq hl, hgot] at hf
      exact h.advance hl rfl (hf.push hne _) (fun n h => nomatch h)
  · exact (h.wakeup .nread).leave_nil hl rfl hwgot

theorem readWaitStep (h : Inv s) {n : Int} (hpc : s.pc p = .readWait n) :
    Inv (readWaitStep s p n).2 := by
  have hl : s.lock = some p := (h.holder p).2 (by rw [hpc]; rfl)
  have hgot : (s.pc p).got = [] := by rw [hpc]; rfl
  unfold Pipe.readWaitStep
  split
  · split <;> exact h.leave_nil hl rfl hgot
  · rename_i hne
    have hf := h.fifo
    rw [St.inHand_eq hl, hgot] at hf
    refine h.advance hl rfl hf (fun _ _ => ?_)
    by_cases he : s.empty = true
    · exact .inr (by simpa [he] using hne)
    · exact .inl (by simpa [St.empty] using he)

theorem readCopyStep (h : Inv s) {n : Int} {got : List UInt8} (hpc : s.pc p = .readCopy n got) :
    Inv (readCopyStep s p n got).2 := by
  have hl : s.lock = some p := (h.holder p).2 (by rw [hpc]; rfl)
  have hgot : (s.pc p).got = got := by rw [hpc]; rfl
  unfold Pipe.readCopyStep
  split
  · rename_i hc
    have hne : s.pipe.nread ≠ s.pipe.nwrite := by simpa [St.empty] using hc.2
    have hf := h.fifo
    rw [St.inHand_eq hl, hgot] at hf
    have hf' := hf.pop hne
    rw [List.append_assoc] at hf'
    exact h.advance hl rfl hf' (fun _ he => by simp at he)
  · refine (h.wakeup .nwrite).leave hl rfl _ ?_
    rw [s.got_wakeup, hgot]; rfl

theorem closeStep (h : Inv s) {writable : Bool} (hpc : s.pc p = .closeEnter writable)
    (hl : s.lock = none) : Inv (closeStep s p writable).2 := by
  -- closing an end leaves the ring alone, and nobody is in a copy loop while the lock is free
  have hclose : ∀ pipe : Pipe, pipe.data = s.pipe.data → pipe.nread = s.pipe.nread →
      pipe.nwrite = s.pipe.nwrite → Inv { s with pipe := pipe } := by
    intro pipe h1 h2 h3
    refine ⟨h.holder, ?_, fun q n hq => ?_⟩
    · obtain ⟨a, b, c, d, e⟩ := h.fifo
      exact ⟨a, b, h2 ▸ c, h3 ▸ d, h1 ▸ e⟩
    · have := h.outside hl q
      rw [hq] at this; cases this
  have hidle : ∀ s1 : St ι, Inv s1 → (s1.pc p).inside = false → ∀ b, Inv { s1.setPc p .idle with freed := b } := by
    intro s1 h1 hin b
    obtain ⟨a, c, d⟩ := h1.setPc_outside .idle hin rfl
    exact ⟨a, c, d⟩
  cases writable
  · refine hidle ({ s with pipe := { s.pipe with readopen := false } }.wakeup .nwrite)
      ((hclose { s.pipe with readopen := false } rfl rfl rfl).wakeup .nwrite) ?_ _
    rw [St.inside_wakeup]; exact h.outside hl p
  · refine hidle ({ s with pipe := { s.pipe with writeopen := false } }.wakeup .nread)
      ((hclose { s.pipe with writeopen := false } rfl rfl rfl).wakeup .nread) ?_ _
    rw [St.inside_wakeup]; exact h.outside hl p

theorem runStep {s' : St ι} {r : Option Ret} (h : Inv s) (hr : runStep s p = some (r, s')) : Inv s' := by
  unfold Pipe.runStep at hr
  have hacq : ∀ pc : Pc, (s.acquire p pc).map (none, ·) = some (r, s') → s.acquire p pc = some s' := by
    intro pc ha
    obtain ⟨s1, h1, h2⟩ := Option.map_eq_some_iff.1 ha
    cases h2; exact h1
  split at hr
  · cases hr
  · exact h.acquire (hacq _ hr) rfl rfl (fun _ h => nomatch h)
  · obtain rfl : (Pipe.writeStep s p _ _ _).2 = s' := congrArg Prod.snd (Option.some.inj hr)
    exact h.writeStep ‹_›
  · cases hr
  · exact h.acquire (hacq _ hr) rfl rfl (fun _ h => nomatch h)
  · exact h.acquire (hacq _ hr) rfl rfl (fun _ h => nomatch h)
  · obtain rfl : (Pipe.readWaitStep s p _).2 = s' := congrArg Prod.snd (Option.some.inj hr)
    exact h.readWaitStep ‹_›
  · cases hr
  · exact h.acquire (hacq _ hr) rfl rfl (fun _ h => nomatch h)
  · obtain rfl : (Pipe.readCopyStep s p _ _).2 = s' := congrArg Prod.snd (Option.some.inj hr)
    exact h.readCopyStep ‹_›
  · split at hr
    · cases hr; exact h.closeStep ‹_› ‹_›
    · cases hr

theorem kill (h : Inv s) (p : ι) :
    Inv { s.setPc p (s.pc p).awake with killed := Function.update s.killed p true } := by
  by_cases hin : (s.pc p).inside = true
  · have : (s.pc p).awake = s.pc p := by
      cases hp : s.pc p <;> simp [hp, Pc.inside] at hin <;> rfl
    have hs : s.setPc p (s.pc p).awake = s := by rw [this, St.setPc, Function.update_eq_self]
    rw [hs]
    obtain ⟨a, b, c⟩ := h
    exact ⟨a, b, c⟩
  · have hin' : (s.pc p).inside = false := by simpa using hin
    obtain ⟨a, b, c⟩ := h.setPc_outside _ hin' (by rw [inside_awake]; exact hin')
    exact ⟨a, b, c⟩

theorem step {s' : St ι} {a : Act ι} (h : Inv s) (hs : step s a = some s') : Inv s' := by
  unfold Pipe.step at hs
  split at hs
  · cases hs
  cases a with
  | call p c =>
    simp only at hs
    split at hs
    · cases hs
      rename_i hpc
      exact h.setPc_outside _ (by rw [hpc]; rfl) (by cases c <;> rfl)
    · cases hs
  | run p =>
    obtain ⟨⟨r, s1⟩, h1, h2⟩ := Option.map_eq_some_iff.1 hs
    cases h2; exact h.runStep h1
  | kill p => cases hs; exact h.kill p

end Inv

theorem init_inv (junk : Fin PIPESIZE → UInt8) : Inv (init junk : St ι) :=
  ⟨fun p => by simp [init, Pc.inside], ⟨List.prefix_rfl, by simp [init], rfl, rfl, Window.nil _ _⟩,
    fun p n hp => nomatch hp⟩

theorem reachable_inv [DecidableEq ι] {junk : Fin PIPESIZE → UInt8} {s : St ι}
    (h : Machine.Reachable step (init junk) s) : Inv s :=
  h.inv (init_inv junk) fun _ _ _ hi _ hs => hi.step hs

/-- What `piperead` returns: the buffer it filled, or `-1` without reading; nothing at all only from
a drained pipe whose write end is closed. -/
theorem Inv.read_ret [DecidableEq ι] {s s' : St ι} {p : ι} {n r : Int} {buf : List UInt8} (h : Inv s)
    (hr : Pipe.runStep s p = some (some (.read n r buf), s')) :
    s'.returned = s.returned ++ buf ∧ (r = buf.length ∨ r = -1 ∧ buf = []) ∧
      (0 < n → r = 0 → s.pipe.writeopen = false ∧ contents s.pipe = []) := by
  have hnone : ∀ pc : Pc, (s.acquire p pc).map (none, ·) ≠ some (some (Ret.read n r buf), s') := by
    intro pc ha
    obtain ⟨_, _, h2⟩ := Option.map_eq_some_iff.1 ha
    cases h2
  unfold Pipe.runStep at hr
  split at hr
  · cases hr
  · exact absurd hr (hnone _)
  · rw [Option.some.injEq] at hr
    unfold Pipe.writeStep at hr
    repeat' split at hr
    all_goals cases hr
  · cases hr
  · exact absurd hr (hnone _)
  · exact absurd hr (hnone _)
  · rw [Option.some.injEq] at hr
    unfold Pipe.readWaitStep at hr
    split at hr
    · split at hr <;> cases hr
      exact ⟨(List.append_nil _).symm, .inr ⟨rfl, rfl⟩, fun _ h => by cases h⟩
    · cases hr
  · cases hr
  · exact absurd hr (hnone _)
  · rename_i n' got hpc
    rw [Option.some.injEq] at hr
    unfold Pipe.readCopyStep at hr
    split at hr
    · cases hr
    · rename_i hc
      cases hr
      refine ⟨rfl, .inl rfl, fun hn h0 => ?_⟩
      obtain rfl : buf = [] := List.length_eq_zero_iff.1 (by omega)
      have he : s.empty = true := by simpa [hn] using hc
      refine ⟨(h.start p n hpc).resolve_left (by simp [he]), ?_⟩
      have heq : s.pipe.nread = s.pipe.nwrite := by simpa [St.empty] using he
      rw [h.fifo.contents_eq, h.fifo.empty_iff.1 heq, List.drop_length]
  · split at hr
    · rw [Option.some.injEq] at hr
      cases congrArg Prod.fst hr
    · cases hr

/-- In every reachable state of a pipe: the ring never holds more than `PIPESIZE` bytes, counted
modulo `2 ^ 32`; the bytes returned so far are a prefix of the bytes accepted so far; every accepted
byte has been returned, or is in the buffer of the reader at work, or is still in `data[]`, each once
and in this order; and a `piperead` of at least one byte that returns 0 does so with the write end
closed and nothing left in the ring. -/
theorem reachable_fifo [DecidableEq ι] {junk : Fin PIPESIZE → UInt8} {s : St ι}
    (h : Machine.Reachable step (init junk) s) :
    (s.pipe.nwrite - s.pipe.nread).toNat ≤ PIPESIZE ∧
    s.returned <+: s.accepted ∧
    s.accepted = s.returned ++ s.inHand ++ contents s.pipe ∧
    ∀ p n r buf s', runStep s p = some (some (.read n r buf), s') →
      s'.returned = s.returned ++ buf ∧ (r = buf.length ∨ r = -1 ∧ buf = []) ∧
      (0 < n → r = 0 → s.pipe.writeopen = false ∧ contents s.pipe = []) := by
  have hi := reachable_inv h
  refine ⟨?_, (List.prefix_append _ _).trans hi.fifo.isPrefix, hi.fifo.split,
    fun p n r buf s' hr => hi.read_ret hr⟩
  have := hi.fifo.room
  rw [hi.fifo.count]
  omega

/-- Process 0 writes the byte 7, process 1 reads it and then finds the closed pipe empty. -/
def writeThenRead : List (Act (Fin 2)) :=
  [.call 0 (.write (fun _ => 7) 1), .run 0, .run 0, .run 0, .call 1 (.read 4), .run 1, .run 1, .run 1,
    .run 1, .call 0 (.close true), .run 0, .call 1 (.read 4), .run 1, .run 1]

theorem reachable_fifo_writeThenRead :
    ∃ s s' : St (Fin 2), Machine.run step (init fun _ => 0) writeThenRead = some s ∧
      s.returned = [7] ∧ s.accepted = s.returned ++ s.inHand ++ contents s.pipe ∧
      runStep s 1 = some (some (.read 4 0 []), s') ∧ s.pipe.writeopen = false ∧
      contents s.pipe = [] := by
  obtain ⟨s, hs⟩ : ∃ s, Machine.run step (init fun _ => 0) writeThenRead = some s := ⟨_, rfl⟩
  have hret : s.returned = [7] := by cases hs; rfl
  have hr : ∃ s', runStep s 1 = some (some (.read 4 0 []), s') := by cases hs; exact ⟨_, rfl⟩
  obtain ⟨s', hr⟩ := hr
  have h := reachable_fifo (Machine.Reach.of_run hs)
  have h' := (h.2.2.2 1 4 0 [] s' hr).2.2 (by decide) rfl
  exact ⟨s, s', hs, hret, h.2.2.1, hr, h'.1, h'.2⟩

end Xv6.Pipe
