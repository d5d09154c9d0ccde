import Xv6.LogInv

/-!
# Crash atomicity of the redo log

`Inv g d₀ s`: for some choice `ks` of how many groups of each earlier boot took effect, at least those
whose commit had returned and at most those whose commit had begun, the state is a possible state of
the log over the contents these groups leave (`Running`, or `Booting` during recovery). A crash turns
the committed contents of the current boot into the next choice; every other step keeps the choice.
-/

namespace Xv6.Log

open Function (update update_self update_of_ne)
open Tally

variable {ι : Type} {g : Geometry} {X : Nat → Block} {s s' : St ι}

def Pc.active : Pc → Nat
  | .inOp .. => 1
  | _ => 0

/-! ### Processes -/

structure Procs [Fintype ι] (s : St ι) : Prop where
  count : s.outstanding = tally Pc.active s.pc
  held : ∀ b p, s.holder b = some p → ∃ op held, s.pc p = .inOp op held ∧ b ∈ held
  home : ∀ p op held b, s.pc p = .inOp op held → b ∈ held → b < 2 ^ 32
  idle : s.committing = false → ∀ p c, s.pc p ≠ .commit c
  one : ∀ p q c c', s.pc p = .commit c → s.pc q = .commit c' → p = q
  busy : s.committing = true → s.outstanding = 0

namespace Procs

variable [Fintype ι]

theorem none_active (h : Procs s) (h0 : s.outstanding = 0) (p : ι) (op : Nat) (held : List Nat) :
    s.pc p ≠ .inOp op held := by
  intro hp
  have := eq_zero_of_tally_eq_zero (h.count ▸ h0) p
  rw [hp] at this
  cases this

theorem free (h : Procs s) (h0 : s.outstanding = 0) (b : Nat) : s.holder b = none := by
  rcases hb : s.holder b with _ | p
  · rfl
  · obtain ⟨op, held, hp, _⟩ := h.held b p hb
    exact absurd hp (h.none_active h0 p op held)

end Procs

/-! ### The state of a machine that is up, and of one that is booting -/

structure Running [Fintype ι] (g : Geometry) (base : Nat → Block) (s : St ι) : Prop where
  procs : Procs s
  coherent : Coherent g s
  quiet : s.committing = false →
    s.returned = s.groups.length ∧ Quiet g (apply base s.groups.flatten) s
  busy : s.committing = true → ∃ gs us p c, s.groups = gs ++ [us] ∧ s.returned = gs.length ∧
    s.pc p = .commit c ∧ Committing g (apply base gs.flatten) us s c

structure Booting (g : Geometry) (X : Nat → Block) (s : St ι) (c : RecoverPc) : Prop where
  pc : ∀ p, s.pc p = .out
  free : ∀ b, s.holder b = none
  clean : ∀ b, s.dirty b = false
  coherent : Coherent g s
  committing : s.committing = false
  outstanding : s.outstanding = 0
  forming : s.forming = []
  groups : s.groups = []
  returned : s.returned = 0
  disk : RecoverDisk g X s c

/-- `k` groups of a boot may have survived: all that returned, none that had not begun. -/
def Survived (e : List (List Update) × Nat) (k : Nat) : Prop := e.2 ≤ k ∧ k ≤ e.1.length

/-- The home contents the first `ks` groups of the earlier boots leave. -/
def contents (d₀ : Nat → Block) (past : List (List (List Update) × Nat)) (ks : List Nat) : Nat → Block :=
  apply d₀ (surviving past ks).flatten

def Inv [Fintype ι] (g : Geometry) (d₀ : Nat → Block) (s : St ι) : Prop :=
  ∃ ks, List.Forall₂ Survived s.past ks ∧
    (∀ c, s.boot = some c → Booting g (contents d₀ s.past ks) s c) ∧
    (s.boot = none → Running g (contents d₀ s.past ks) s)

/-! ### Steps of operations -/

theorem Procs.move [Fintype ι] [DecidableEq ι] {p : ι} {x : Pc} (h : Procs s) (hpc : s'.pc = update s.pc p x)
    (hone : ∀ q, q ≠ p → ∀ c, s.pc q ≠ .commit c) (hx : s'.committing = false → ∀ c, x ≠ .commit c)
    (hbusy : s'.committing = true → s'.outstanding = 0)
    (hcount : s'.outstanding + (s.pc p).active = s.outstanding + x.active)
    (hheld : ∀ b q, s'.holder b = some q →
      q ≠ p ∧ s.holder b = some q ∨ q = p ∧ ∃ op held, x = .inOp op held ∧ b ∈ held)
    (hhome : ∀ op held b, x = .inOp op held → b ∈ held → b < 2 ^ 32) : Procs s' := by
  have hself : s'.pc p = x := by rw [hpc, update_self]
  have hother : ∀ q, q ≠ p → s'.pc q = s.pc q := fun q hq => by rw [hpc, update_of_ne hq]
  have honly : ∀ q c, s'.pc q = .commit c → q = p := fun q c hq => by
    by_contra hqp
    exact hone q hqp c (hother q hqp ▸ hq)
  refine ⟨?_, fun b q hb => ?_, fun q op held b hq hm => ?_, fun hc q c hq => ?_,
    fun q r c c' hq hr => (honly q c hq).trans (honly r c' hr).symm, hbusy⟩
  · have := tally_update Pc.active s.pc p x
    rw [← h.count] at this
    rw [hpc]
    omega
  · rcases hheld b q hb with ⟨hqp, hb⟩ | ⟨rfl, op, held, hxe, hm⟩
    · obtain ⟨op, held, hq, hm⟩ := h.held b q hb
      exact ⟨op, held, (hother q hqp).trans hq, hm⟩
    · exact ⟨op, held, hself.trans hxe, hm⟩
  · rcases eq_or_ne q p with rfl | hqp
    · exact hhome op held b (hself ▸ hq) hm
    · exact h.home q op held b (hother q hqp ▸ hq) hm
  · obtain rfl := honly q c hq
    exact hx hc c (hself ▸ hq)

namespace Running

variable [Fintype ι] {base : Nat → Block} {p : ι}

theorem of_quiet (hp : Procs s) (hco : Coherent g s) (hc : s.committing = false)
    (hr : s.returned = s.groups.length) (hq : Quiet g (apply base s.groups.flatten) s) : Running g base s :=
  ⟨hp, hco, fun _ => ⟨hr, hq⟩, fun h => absurd h (by simp [hc])⟩

theorem not_committing (h : Running g base s) {op : Nat} {held : List Nat} (hp : s.pc p = .inOp op held) :
    s.committing = false := by
  by_contra hc
  have h0 := h.procs.busy (by simpa using hc)
  exact h.procs.none_active h0 p op held hp

theorem commit_at {c : CommitPc} (h : Running g base s) (hp : s.pc p = .commit c) :
    s.committing = true ∧ ∃ gs us, s.groups = gs ++ [us] ∧ s.returned = gs.length ∧
      Committing g (apply base gs.flatten) us s c := by
  have hc : s.committing = true := by
    by_contra hc
    exact h.procs.idle (by simpa using hc) p c hp
  obtain ⟨gs, us, q, c', hg, hr, hq, hi⟩ := h.busy hc
  rw [h.procs.one q p c' c hq hp, hp] at hq
  cases hq
  exact ⟨hc, gs, us, hg, hr, hi⟩

theorem recache {cache : Nat → Option Block} (h : Running g base s)
    (hb : ({ s with cache := cache } : St ι).bread = s.bread) :
    Running g base ({ s with cache := cache } : St ι) := by
  refine ⟨⟨h.procs.count, h.procs.held, h.procs.home, h.procs.idle, h.procs.one, h.procs.busy⟩,
    ⟨fun b hd hh => ?_, h.coherent.log⟩, fun hc => ?_, fun hc => ?_⟩
  · rw [hb]; exact h.coherent.clean b hd hh
  · obtain ⟨hr, hq⟩ := h.quiet hc
    refine ⟨hr, hq.header, hq.disk, fun b hbh hh => ?_, hq.lists⟩
    rw [hb]; exact hq.view b hbh hh
  · obtain ⟨gs, us, p, c, hg, hr, hp, hi⟩ := h.busy hc
    refine ⟨gs, us, p, c, hg, hr, hp, hi.free, hi.forming, fun b hbh => ?_, hi.disk⟩
    rw [hb]; exact hi.view b hbh

variable [DecidableEq ι]

theorem move {x : Pc} (h : Running g base s) (hc : s.committing = false) (hpc : s'.pc = update s.pc p x)
    (hc' : s'.committing = false) (hx : ∀ c, x ≠ .commit c)
    (hcount : s'.outstanding + (s.pc p).active = s.outstanding + x.active)
    (hheld : ∀ b q, s'.holder b = some q →
      q ≠ p ∧ s.holder b = some q ∨ q = p ∧ ∃ op held, x = .inOp op held ∧ b ∈ held)
    (hhome : ∀ op held b, x = .inOp op held → b ∈ held → b < 2 ^ 32) : Procs s' :=
  h.procs.move hpc (fun q _ => h.procs.idle hc q) (fun _ => hx) (fun h' => absurd h' (by simp [hc'])) hcount
    hheld hhome

theorem beginOp (h : Running g base s) (hs : beginOp s p = some s') : Running g base s' := by
  unfold Log.beginOp at hs
  split at hs
  · rename_i hp
    split at hs
    · cases hs
    rename_i hc
    have hc : s.committing = false := by simpa using hc
    split at hs
    · cases hs
    cases hs
    obtain ⟨hr, hq⟩ := h.quiet hc
    refine of_quiet (h.move hc (x := .inOp s.nextOp []) rfl hc nofun ?_ (fun b q hb => ?_) ?_)
      ⟨h.coherent.clean, h.coherent.log⟩ hc hr ⟨hq.header, hq.disk, hq.view, hq.lists⟩
    · rw [hp]; rfl
    · obtain ⟨op, held, hq, _⟩ := h.procs.held b q hb
      exact .inl ⟨fun hqp => (by rw [hqp, hp] at hq; cases hq), hb⟩
    · rintro op held b ⟨⟩ hm
      cases hm
  · cases hs

theorem modify {b : Nat} {v : Block} (h : Running g base s) (hs : modify g s p b v = some s') :
    Running g base s' := by
  unfold Log.modify at hs
  split at hs
  · rename_i op held hp
    have hc := h.not_committing hp
    obtain ⟨hr, hq⟩ := h.quiet hc
    -- with the buffer of `b` held, only its own contents change
    have hread : ∀ c, c ≠ b → ({ s with cache := update s.cache b (some v) } : St ι).bread c = s.bread c :=
      fun c hcb => by simp [St.bread, update_of_ne hcb]
    split at hs
    · rename_i hb
      cases hs
      have hnone : ∀ c, (update s.holder b (some p)) c = none → c ≠ b := by
        rintro c hc' rfl
        rw [update_self] at hc'; cases hc'
      refine of_quiet (h.move hc (x := .inOp op (b :: held)) rfl hc (fun _ hx => by cases hx) ?_ (fun c q hcq => ?_) ?_)
        ⟨fun c hd hh => ?_, fun c hcl => ?_⟩ hc hr ⟨hq.header, hq.disk, fun c hch hh => ?_, hq.lists⟩
      · rw [hp]; rfl
      · by_cases hcb : c = b
        · subst hcb
          simp only [update_self, Option.some.injEq] at hcq
          exact .inr ⟨hcq.symm, op, c :: held, rfl, List.mem_cons_self ..⟩
        · simp only [update_of_ne hcb] at hcq
          by_cases hqp : q = p
          · subst hqp
            obtain ⟨op', held', hp', hm⟩ := h.procs.held c q hcq
            rw [hp] at hp'; cases hp'
            exact .inr ⟨rfl, op, b :: held, rfl, List.mem_cons_of_mem _ hm⟩
          · exact .inl ⟨hqp, hcq⟩
      · rintro _ _ c ⟨⟩ hm
        rcases List.mem_cons.1 hm with rfl | hm
        · exact hb.2.1
        · exact h.procs.home p op held c hp hm
      · have hcb := hnone c hh
        exact (hread c hcb).trans (h.coherent.clean c hd (by simpa [update_of_ne hcb] using hh))
      · have hcb : c ≠ b := (g.ne_of_home hb.1 hcl).symm
        exact ⟨(h.coherent.log c hcl).1, by simpa [update_of_ne hcb] using (h.coherent.log c hcl).2⟩
      · have hcb := hnone c hh
        exact (hread c hcb).trans (hq.view c hch (by simpa [update_of_ne hcb] using hh))
    · split at hs
      · rename_i hb
        cases hs
        have hne : ∀ c, s.holder c = none → c ≠ b := by
          rintro c hc' rfl
          rw [hb] at hc'; cases hc'
        refine of_quiet ⟨h.procs.count, h.procs.held, h.procs.home, h.procs.idle, h.procs.one, h.procs.busy⟩
          ⟨fun c hd hh => ?_, h.coherent.log⟩ hc hr ⟨hq.header, hq.disk, fun c hch hh => ?_, hq.lists⟩
        · exact (hread c (hne c hh)).trans (h.coherent.clean c hd hh)
        · exact (hread c (hne c hh)).trans (hq.view c hch hh)
      · cases hs
  · cases hs

theorem logWrite {b : Nat} (h : Running g base s) (hs : logWrite g s p b = some s') : Running g base s' := by
  unfold Log.logWrite at hs
  split at hs
  · rename_i op held hp
    have hc := h.not_committing hp
    obtain ⟨hr, hq⟩ := h.quiet hc
    split at hs
    · cases hs
    rename_i hb
    rw [ne_eq, not_not] at hb
    split at hs
    · cases hs
    rename_i hlen
    split at hs
    · cases hs
    cases hs
    have hhome : g.Home b := by
      by_contra hnot
      have := (h.coherent.log b hnot).2
      rw [hb] at this; cases this
    obtain ⟨op', held', hp', hm⟩ := h.procs.held b p hb
    rw [hp] at hp'; cases hp'
    have hlt := h.procs.home p op held b hp hm
    refine of_quiet (h.move hc (x := .inOp op (held.erase b)) rfl hc nofun ?_ (fun c q hcq => ?_) ?_)
      ⟨fun c hd hh => ?_, fun c hcl => ?_⟩ hc hr ⟨hq.header, hq.disk, fun c hch hh => ?_,
        hq.lists.logWrite (u := ⟨op, b, s.bread b⟩) hlen ⟨hhome, hlt⟩⟩
    · rw [hp]; rfl
    · have hcb : c ≠ b := by
        rintro rfl
        simp at hcq
      simp only [update_of_ne hcb] at hcq
      by_cases hqp : q = p
      · subst hqp
        obtain ⟨op', held', hp', hm'⟩ := h.procs.held c q hcq
        rw [hp] at hp'; cases hp'
        exact .inr ⟨rfl, op, held.erase b, rfl, (List.mem_erase_of_ne hcb).2 hm'⟩
      · exact .inl ⟨hqp, hcq⟩
    · rintro _ _ c ⟨⟩ hm'
      exact h.procs.home p op held c hp (List.mem_of_mem_erase hm')
    · have hcb : c ≠ b := by
        rintro rfl
        simp at hd
      simp only [update_of_ne hcb] at hd hh
      exact h.coherent.clean c hd hh
    · have hcb : c ≠ b := (g.ne_of_home hhome hcl).symm
      simpa [update_of_ne hcb] using h.coherent.log c hcl
    · show s.bread c = apply _ (s.forming ++ [⟨op, b, s.bread b⟩]) c
      rw [apply_snoc]
      by_cases hcb : c = b
      · subst hcb; rw [update_self]
      · rw [update_of_ne hcb]
        exact hq.view c hch (by simpa [update_of_ne hcb] using hh)
  · cases hs

theorem endOp (h : Running g base s) (hs : endOp s p = some s') : Running g base s' := by
  unfold Log.endOp at hs
  split at hs
  · rename_i op hp
    have hc := h.not_committing hp
    obtain ⟨hr, hq⟩ := h.quiet hc
    have hne : ∀ b q, s.holder b = some q → q ≠ p := by
      rintro b q hb rfl
      obtain ⟨op', held', hp', hm⟩ := h.procs.held b q hb
      rw [hp] at hp'; cases hp'
      cases hm
    have hpos : 1 ≤ s.outstanding := by
      have := le_tally Pc.active s.pc p
      rw [hp, ← h.procs.count] at this
      exact this
    split at hs
    · rename_i hcm
      rw [hc] at hcm; cases hcm
    split at hs
    · -- the last operation of the group
      rename_i h0
      cases hs
      have hfree : ∀ b, s.holder b = none := by
        intro b
        rcases hb : s.holder b with _ | q
        · rfl
        obtain ⟨op', held', hq', _⟩ := h.procs.held b q hb
        have hcount := tally_update Pc.active s.pc p .out
        rw [← h.procs.count, hp] at hcount
        simp only [Pc.active] at hcount
        have := eq_zero_of_tally_eq_zero (w := Pc.active) (f := update s.pc p .out) (by omega) q
        rw [update_of_ne (hne b q hb), hq'] at this
        cases this
      have hmem := hq.lists.mem
      refine ⟨h.procs.move rfl (fun q _ => h.procs.idle hc q) nofun (fun _ => h0) ?_
        (fun b q hb => absurd hb (by simp [St.setPc, hfree b])) nofun,
        ⟨h.coherent.clean, h.coherent.log⟩, nofun, fun _ => ⟨s.groups, s.forming, p, _, rfl, hr,
          update_self .., hfree, rfl, fun b hb => hq.view b hb (hfree b), ?_⟩⟩
      · rw [hp]
        simp only [Pc.active]; omega
      · by_cases hlh : s.lh.length > 0
        · rw [if_pos hlh]
          exact ⟨hq.lists, hq.header, hq.disk, fun i b hi => absurd hi (Nat.not_lt_zero i)⟩
        · rw [if_neg hlh]
          have hlh : s.lh = [] := List.length_eq_zero_iff.1 (by omega)
          refine ⟨hlh, hq.header, fun b hb => ?_⟩
          rw [apply_of_notMem _ _ fun hm => by simpa [hlh] using (hmem b).2 hm]
          exact hq.disk b hb
    · cases hs
      refine of_quiet (h.move hc (x := .out) rfl hc nofun ?_ (fun b q hb => ?_) ?_)
        ⟨h.coherent.clean, h.coherent.log⟩ hc hr ⟨hq.header, hq.disk, hq.view, hq.lists⟩
      · rw [hp]
        simp only [Pc.active]; omega
      · exact .inl ⟨hne b q hb, hb⟩
      · rintro op' held b ⟨⟩
  · cases hs

/-! ### Steps of a commit -/

theorem commit_next {c c' : CommitPc} {gs : List (List Update)} {us : List Update} (h : Running g base s)
    (hp : s.pc p = .commit c) (hpc : s'.pc = update s.pc p (.commit c')) (hc' : s'.committing = s.committing)
    (ho : s'.outstanding = s.outstanding) (hh : s'.holder = s.holder) (hco : Coherent g s')
    (hg : s'.groups = gs ++ [us]) (hr : s'.returned = gs.length)
    (hi : Committing g (apply base gs.flatten) us s' c') : Running g base s' := by
  have hc := (h.commit_at hp).1
  have hc' : s'.committing = true := hc'.trans hc
  refine ⟨h.procs.move hpc (fun q hq d hd => hq (h.procs.one q p d c hd hp)) (fun h' => absurd h' (by simp [hc']))
    (fun _ => ho.trans (h.procs.busy hc)) ?_ (fun b q hb => ?_) nofun, hco, fun h' => absurd h' (by simp [hc']),
    fun _ => ⟨gs, us, p, c', hg, hr, by rw [hpc, update_self], hi⟩⟩
  · rw [ho, hp]; rfl
  · rw [hh, h.procs.free (h.procs.busy hc) b] at hb; cases hb

theorem commit_done (h : Running g base s) (hp : s.pc p = .commit .done) :
    Running g base { s.setPc p .out with committing := false, returned := s.returned + 1 } := by
  obtain ⟨hc, gs, us, hg, hr, hi⟩ := h.commit_at hp
  obtain ⟨hlh, hhd, hdisk⟩ := hi.disk
  have hall : apply base s.groups.flatten = apply (apply base gs.flatten) us := by
    rw [← apply_append, hg]; simp
  refine of_quiet (h.procs.move rfl (fun q hq c hc => hq (h.procs.one q p c _ hc hp)) nofun nofun ?_
    (fun b q hb => absurd hb (by simp [St.setPc, hi.free b])) nofun) ⟨h.coherent.clean, h.coherent.log⟩ rfl
    ?_ ⟨hhd, fun b hb => ?_, fun b hb _ => ?_, ?_⟩
  · rw [hp]; rfl
  · show s.returned + 1 = s.groups.length
    rw [hr, hg, List.length_append, List.length_singleton]
  · show s.disk b = apply base s.groups.flatten b
    rw [hall]; exact hdisk b hb
  · show s.bread b = apply (apply base s.groups.flatten) s.forming b
    rw [hi.forming, hall]; exact hi.view b hb
  · show Lists g s.lh s.forming
    rw [hlh, hi.forming]; exact .nil

theorem commitStep (h : Running g base s) (hs : commitStep g s p = some s') : Running g base s' := by
  unfold Log.commitStep at hs
  split at hs
  · rename_i t hp
    obtain ⟨hc, gs, us, hg, hr, hi⟩ := h.commit_at hp
    obtain ⟨hl, hhd, hd, hlog⟩ := hi.disk
    split at hs
    · -- one more block copied to the log
      rename_i b hb
      cases hs
      have hlt := (List.getElem?_eq_some_iff.1 hb).1
      have hsize := hl.size
      have hhome : g.Home b := (hl.home b (List.mem_of_getElem? hb)).1
      have hnot : ¬ g.Home (g.start + t + 1) := g.not_home_log (by omega)
      refine h.commit_next hp rfl rfl rfl rfl ((h.coherent.bwrite _ _).setPc _ _) hg hr ⟨hi.free, hi.forming,
        fun c hch => ?_, hl, ?_, fun c hch => ?_, fun i c hit hc => ?_⟩
      · exact (bwrite_home hch hnot).2.trans (hi.view c hch)
      · show readHeader ((s.writeLog g t b).disk g.start) = []
        rw [St.writeLog, disk_bwrite, update_of_ne (by omega)]
        exact hhd
      · exact (bwrite_home hch hnot).1.trans (hd c hch)
      · show (s.writeLog g t b).disk (g.start + i + 1) = _
        rw [St.writeLog, disk_bwrite]
        by_cases hie : i = t
        · subst hie
          rw [update_self]
          obtain rfl : c = b := Option.some.inj ((show s.lh[i]? = some c from hc).symm.trans hb)
          exact hi.view c hhome
        · rw [update_of_ne (by omega)]
          exact hlog i c (by omega) hc
    · rename_i hnone
      cases hs
      refine h.commit_next hp rfl rfl rfl rfl ⟨h.coherent.clean, h.coherent.log⟩ hg hr ⟨hi.free, hi.forming,
        hi.view, hl, hhd, hd, fun i b hb => hlog i b ?_ hb⟩
      have h1 := (List.getElem?_eq_some_iff.1 hb).1
      have h2 := List.getElem?_eq_none_iff.1 hnone
      have h3 : i < s.lh.length := h1
      omega
  · rename_i hp
    obtain ⟨hc, gs, us, hg, hr, hi⟩ := h.commit_at hp
    obtain ⟨hl, hhd, hd, hlog⟩ := hi.disk
    cases hs
    -- the real commit: the header now lists the group
    have hread : readHeader ((s.writeHead g).disk g.start) = s.lh := by
      rw [St.writeHead, disk_bwrite, update_self]
      exact readHeader_putHeader _ hl.len fun b hb => (hl.home b hb).2
    have hother : ∀ c, c ≠ g.start → (s.writeHead g).disk c = s.disk c := fun c hcs => by
      rw [St.writeHead, disk_bwrite, update_of_ne hcs]
    refine h.commit_next hp rfl rfl rfl rfl ((h.coherent.bwrite _ _).setPc _ _) hg hr ⟨hi.free, hi.forming,
      fun c hch => ?_, hread, ⟨?_, ?_, ?_, ?_⟩, fun i b hi => absurd hi (Nat.not_lt_zero i)⟩
    · exact (bwrite_home hch g.not_home_start).2.trans (hi.view c hch)
    · show (readHeader ((s.writeHead g).disk g.start)).length ≤ _
      rw [hread]; exact hl.size
    · show ∀ b ∈ readHeader ((s.writeHead g).disk g.start), g.Home b
      rw [hread]; exact fun b hb => (hl.home b hb).1
    · show ∀ i b, (readHeader ((s.writeHead g).disk g.start))[i]? = some b → (s.writeHead g).disk _ = _
      rw [hread]
      intro i b hb
      rw [hother _ (by omega)]
      exact hlog i b hb
    · show ∀ b, g.Home b → b ∉ readHeader ((s.writeHead g).disk g.start) → (s.writeHead g).disk b = _
      rw [hread]
      intro b hb hnot
      rw [hother _ (g.ne_of_home hb g.not_home_start), hd b hb,
        apply_of_notMem _ _ fun hm => hnot ((hl.mem b).2 hm)]
  · rename_i t hp
    obtain ⟨hc, gs, us, hg, hr, hi⟩ := h.commit_at hp
    obtain ⟨hhd, hrec, hdone⟩ := hi.disk
    split at hs
    · rename_i b hb
      cases hs
      obtain ⟨h1, h2, h3, h4⟩ := install_round h.coherent hhd hrec hdone hb
      refine h.commit_next hp rfl rfl rfl rfl ((h.coherent.bwrite _ _).setPc _ _) hg hr ⟨hi.free, hi.forming,
        fun c hch => ?_, h1, h2, h3⟩
      show (s.installTrans g t b).bread c = _
      rw [h4]
      by_cases hcb : c = b
      · subst hcb; rw [update_self]
      · rw [update_of_ne hcb]; exact hi.view c hch
    · rename_i hnone
      cases hs
      have hend := install_end hhd hrec hdone hnone
      exact h.commit_next hp rfl rfl rfl rfl ⟨h.coherent.clean, h.coherent.log⟩ hg hr ⟨hi.free, hi.forming,
        hi.view, rfl, hrec, hend⟩
  · rename_i hp
    obtain ⟨hc, gs, us, hg, hr, hi⟩ := h.commit_at hp
    obtain ⟨hlh, hrec, hd⟩ := hi.disk
    cases hs
    obtain ⟨h1, h2⟩ := writeHead_empty (g := g) hlh
    exact h.commit_next hp rfl rfl rfl rfl ((h.coherent.bwrite _ _).setPc _ _) hg hr ⟨hi.free, hi.forming,
      fun c hch => (h2 c hch).2.trans (hi.view c hch), hlh, h1, fun c hch => (h2 c hch).1.trans (hd c hch)⟩
  · rename_i hp
    cases hs
    exact h.commit_done hp
  · cases hs

theorem step {a : Act ι} (h : Running g base s) (hb : s.boot = none) (ha : a ≠ .crash)
    (hs : step g s a = some s') : Running g base s' := by
  have hup : s.boot.isSome = false := by rw [hb]; rfl
  cases a <;> simp only [Log.step, hup, Bool.false_eq_true, if_false] at hs
  case begin p => exact h.beginOp hs
  case modify p b v => exact h.modify hs
  case logWrite p b => exact h.logWrite hs
  case «end» p => exact h.endOp hs
  case commit p => exact h.commitStep hs
  case fetch b =>
    cases hs
    exact h.recache (bread_fetch b)
  case evict b =>
    obtain ⟨hd, hs⟩ := Option.ite_none_right_eq_some.1 hs
    cases hs
    exact h.recache (h.coherent.bread_evict hd.1 hd.2)
  case crash => exact absurd rfl ha
  case recover => simp [recoverStep, hb] at hs

end Running

/-! ### Steps of recovery -/

namespace Booting

variable {c : RecoverPc}

theorem recache {cache : Nat → Option Block} (h : Booting g X s c)
    (hb : ({ s with cache := cache } : St ι).bread = s.bread) :
    Booting g X ({ s with cache := cache } : St ι) c :=
  ⟨h.pc, h.free, h.clean, ⟨fun b hd hh => by rw [hb]; exact h.coherent.clean b hd hh, h.coherent.log⟩,
    h.committing, h.outstanding, h.forming, h.groups, h.returned, h.disk⟩

theorem of_recovers {d : Nat → Block} (h : Recovers g d X) (n : Nat) (past : List (List (List Update) × Nat)) :
    Booting g X (boot d n past : St ι) .readHead :=
  ⟨fun _ => rfl, fun _ => rfl, fun _ => rfl, ⟨fun _ _ _ => rfl, fun _ _ => ⟨rfl, rfl⟩⟩, rfl, rfl, rfl, rfl, rfl, h⟩

theorem running [Fintype ι] (h : Booting g X s c) (hlh : s.lh = [])
    (hhd : readHeader (s.disk g.start) = []) (hd : ∀ b, g.Home b → s.disk b = X b) : Running g X s := by
  have hno : ∀ p op held, s.pc p ≠ .inOp op held := fun p op held hp => by rw [h.pc p] at hp; cases hp
  refine Running.of_quiet ⟨?_, fun b p hb => ?_, fun p op held b hp => absurd hp (hno p op held),
    fun _ p c hp => ?_, fun p q c c' hp => ?_, fun hc => ?_⟩ h.coherent h.committing ?_ ⟨hhd, ?_, ?_, ?_⟩
  · rw [h.outstanding, tally_eq_zero fun p => by rw [h.pc p]; rfl]
  · rw [h.free b] at hb; cases hb
  · rw [h.pc p] at hp; cases hp
  · rw [h.pc p] at hp; cases hp
  · rw [h.committing] at hc; cases hc
  · rw [h.groups, h.returned]; rfl
  · rw [h.groups]; exact hd
  · intro b hb hh
    rw [h.groups, h.forming, h.coherent.clean b (h.clean b) hh]
    exact hd b hb
  · rw [hlh, h.forming]; exact .nil

theorem recoverStep [Fintype ι] (h : Booting g X s c) (hboot : s.boot = some c)
    (hs : recoverStep g s = some s') :
    s'.past = s.past ∧ (∀ c', s'.boot = some c' → Booting g X s' c') ∧
      (s'.boot = none → Running g X s') := by
  unfold Log.recoverStep at hs
  rw [hboot] at hs
  have hclean : ∀ b c v, (update s.dirty b false) c = v → v = false := by
    rintro b c v rfl
    by_cases hcb : c = b
    · subst hcb; rw [update_self]
    · rw [update_of_ne hcb, h.clean c]
  cases c with
  | readHead =>
    cases hs
    refine ⟨rfl, ?_, nofun⟩
    rintro _ ⟨⟩
    refine ⟨h.pc, h.free, h.clean, ⟨h.coherent.clean, h.coherent.log⟩, h.committing, h.outstanding,
      h.forming, h.groups, h.returned, ?_, h.disk, fun i b hi => absurd hi (Nat.not_lt_zero i)⟩
    exact congrArg readHeader (h.coherent.bread_log g.not_home_start).symm
  | install t =>
    obtain ⟨hhd, hrec, hdone⟩ := h.disk
    simp only at hs
    split at hs
    · rename_i b hb
      cases hs
      obtain ⟨h1, h2, h3, -⟩ := install_round h.coherent hhd hrec hdone hb
      have hco := h.coherent.bwrite b (s.bread (g.start + t + 1))
      refine ⟨rfl, ?_, nofun⟩
      rintro _ ⟨⟩
      exact ⟨h.pc, h.free, fun c => hclean b c _ rfl, ⟨hco.clean, hco.log⟩, h.committing, h.outstanding,
        h.forming, h.groups, h.returned, h1, h2, h3⟩
    · rename_i hnone
      cases hs
      have hend := install_end hhd hrec hdone hnone
      refine ⟨rfl, ?_, nofun⟩
      rintro _ ⟨⟩
      exact ⟨h.pc, h.free, h.clean, ⟨h.coherent.clean, h.coherent.log⟩, h.committing, h.outstanding,
        h.forming, h.groups, h.returned, rfl, hrec, hend⟩
  | clearHead =>
    obtain ⟨hlh, hrec, hd⟩ := h.disk
    cases hs
    obtain ⟨h1, h2⟩ := writeHead_empty (g := g) hlh
    have hco := h.coherent.bwrite g.start (putHeader (s.bread g.start) s.lh)
    have hd' : ∀ b, g.Home b → (s.writeHead g).disk b = X b := fun b hb => (h2 b hb).1.trans (hd b hb)
    refine ⟨rfl, nofun, fun _ => running (c := .clearHead) ⟨h.pc, h.free, fun c => hclean g.start c _ rfl, ⟨hco.clean, hco.log⟩,
      h.committing, h.outstanding, h.forming, h.groups, h.returned, hlh, .of_empty h1 hd', hd'⟩ hlh h1 hd'⟩

end Booting

/-! ### Every step -/

theorem step_frame [DecidableEq ι] {a : Act ι} (hb : s.boot = none) (ha : a ≠ .crash)
    (hs : step g s a = some s') : s'.past = s.past ∧ s'.boot = none := by
  cases a <;> simp only [step, beginOp, modify, logWrite, endOp, commitStep] at hs
  case crash => exact absurd rfl ha
  case recover => simp [recoverStep, hb] at hs
  all_goals
    repeat' split at hs
    all_goals cases hs
    all_goals exact ⟨rfl, hb⟩

theorem surviving_snoc {past : List (List (List Update) × Nat)} {ks : List Nat} (h : past.length = ks.length)
    (e : List (List Update) × Nat) (k : Nat) :
    surviving (past ++ [e]) (ks ++ [k]) = surviving past ks ++ e.1.take k := by
  rw [surviving, List.zipWith_append h]
  simp [surviving]

theorem contents_snoc {d₀ : Nat → Block} {past : List (List (List Update) × Nat)} {ks : List Nat}
    (h : past.length = ks.length) (e : List (List Update) × Nat) (k : Nat) :
    contents d₀ (past ++ [e]) (ks ++ [k]) = apply (contents d₀ past ks) (e.1.take k).flatten := by
  rw [contents, surviving_snoc h, List.flatten_append, apply_append, ← contents]

namespace Inv

variable [Fintype ι] {d₀ : Nat → Block}

/-- A crash: some number of the groups of this boot has taken effect. -/
theorem crash (h : Inv g d₀ s) : Inv g d₀ (boot s.disk s.nextOp (s.past ++ [(s.groups, s.returned)]) : St ι) := by
  obtain ⟨ks, hks, hboot, hup⟩ := h
  have hlen := hks.length_eq
  -- it is enough to say how many, and that the disk recovers to what they leave
  suffices ∃ k, Survived (s.groups, s.returned) k ∧
      Recovers g s.disk (apply (contents d₀ s.past ks) (s.groups.take k).flatten) by
    obtain ⟨k, hk, hr⟩ := this
    refine ⟨ks ++ [k], List.rel_append hks (.cons hk .nil), ?_, nofun⟩
    rintro _ ⟨⟩
    show Booting g (contents d₀ (s.past ++ [(s.groups, s.returned)]) (ks ++ [k])) _ .readHead
    rw [contents_snoc hlen]
    exact .of_recovers hr _ _
  rcases hb : s.boot with _ | c
  · have h := hup hb
    rcases hc : s.committing with _ | _
    · obtain ⟨hr, hq⟩ := h.quiet hc
      refine ⟨s.groups.length, ⟨hr.le, le_rfl⟩, .of_empty hq.header ?_⟩
      rw [List.take_length]
      exact hq.disk
    · obtain ⟨gs, us, p, c, hg, hr, -, hi⟩ := h.busy hc
      rcases hi.recovers with hX | hY
      · refine ⟨gs.length, ⟨hr.le, by simp [hg]⟩, ?_⟩
        rw [hg, List.take_left]
        exact hX
      · refine ⟨gs.length + 1, ⟨?_, by simp [hg]⟩, ?_⟩
        · show s.returned ≤ gs.length + 1
          omega
        · have : s.groups.take (gs.length + 1) = gs ++ [us] := by
            rw [hg, List.take_of_length_le (by simp)]
          rw [this, List.flatten_append, apply_append, List.flatten_singleton]
          exact hY
  · have h := hboot c hb
    refine ⟨0, ⟨h.returned.le, Nat.zero_le _⟩, ?_⟩
    exact h.disk.recovers

variable [DecidableEq ι]

theorem step {a : Act ι} (h : Inv g d₀ s) (hs : step g s a = some s') : Inv g d₀ s' := by
  by_cases ha : a = .crash
  · subst ha
    cases hs
    exact h.crash
  obtain ⟨ks, hks, hboot, hup⟩ := h
  rcases hb : s.boot with _ | c
  · obtain ⟨hpast, hnone⟩ := step_frame hb ha hs
    exact ⟨ks, hpast ▸ hks, fun c hc => by simp [hnone] at hc, fun _ => hpast ▸ (hup hb).step hb ha hs⟩
  · suffices s'.past = s.past ∧ (∀ c', s'.boot = some c' → Booting g (contents d₀ s.past ks) s' c') ∧
        (s'.boot = none → Running g (contents d₀ s.past ks) s') from ⟨ks, this.1 ▸ hks, this.1 ▸ this.2⟩
    have hnone : s.boot ≠ none := by simp [hb]
    cases a with
    | fetch b =>
      cases hs
      exact ⟨rfl, fun c hc => (hboot c hc).recache (bread_fetch b), fun hn => absurd hn hnone⟩
    | evict b =>
      obtain ⟨hd, hs⟩ := Option.ite_none_right_eq_some.1 hs
      cases hs
      have hco := (hboot c hb).coherent
      exact ⟨rfl, fun c hc => (hboot c hc).recache (hco.bread_evict hd.1 hd.2), fun hn => absurd hn hnone⟩
    | recover => exact (hboot c hb).recoverStep hb hs
    | crash => exact absurd rfl ha
    | _ => simp [Log.step, hb] at hs

end Inv

end Xv6.Log
