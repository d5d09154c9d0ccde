import Xv6.SchedInv

/-!
# A CPU never runs on freed memory

Which slot owns which kernel stack and page directory (`Owned`), and what each CPU has loaded
(`Loaded`). A page directory stays loaded from `switchuvm` to `switchkvm`; in between its process is
on that CPU, or the scheduler of that CPU still has `ptable.lock`.
-/

namespace Xv6.Sched

open Function
open ProcMem (NPROC ProcState)

set_option linter.unusedSectionVars false

variable {C L A : Type} [DecidableEq C] [DecidableEq L] [DecidableEq A]

namespace Call

def copied : Call → Option Slot
  | forkParent np | forkRun np => some np
  | _ => Option.none

theorem child_of_copied {call : Call} {np : Slot} (h : call.copied = some np) : call.child = some np := by
  cases call <;> first | exact h | cases h

/-- The page directory an `exec` has besides the one of the process. -/
def spare : Call → Option Nat
  | execImage pgdir => some pgdir
  | execSwitch oldpgdir | execFree oldpgdir => some oldpgdir
  | _ => Option.none

end Call

inductive Owner
  | stack (p : Slot)
  | dir (p : Slot)
  | spare (p : Slot)
deriving DecidableEq

/-- The directory in `pgdir` belongs to the slot; in a free slot it is a stale pointer. -/
def HasDir (s : St C L A) (p : Slot) : Prop :=
  (s.procs p).state ≠ .UNUSED ∧ (s.procs p).state ≠ .EMBRYO ∨ ∃ q, (s.call q).copied = some p

def Holds (s : St C L A) (page : Nat) : Owner → Prop
  | .stack p => (s.procs p).kstack = some page
  | .dir p => (s.procs p).pgdir = some page ∧ HasDir s p
  | .spare p => (s.call p).spare = some page

theorem Pc.resume_pages {pc pc' : Pc L A} {q q' : Proc A} (h : pc.resume q = some (pc', q')) :
    q'.kstack = q.kstack ∧ q'.pgdir = q.pgdir := by
  unfold resume at h
  split at h <;> cases h <;> exact ⟨rfl, rfl⟩

namespace Ctl

variable {s : St C L A} {c : C} {p z : Slot}

theorem off_embryo (h : Ctl s) (hz : (s.procs z).state = .EMBRYO) (c' : C) :
    (s.cpu c').mode ≠ .away z ∧ (s.cpu c').mode ≠ .back z := by
  refine ⟨fun hm => ?_, fun hm => ?_⟩
  · rw [(h.away c' z hm).1] at hz
    cases hz
  · rcases (h.back c' z hm).2 with hst | hst | hst <;> rw [hst] at hz <;> cases hz

theorem free (h : Ctl s) (hpt : s.ptlock = none) (c : C) : (s.cpu c).proc = none ∨
    ∃ p, (s.cpu c).mode = .away p ∧ (s.cpu c).proc = some p ∧ (s.procs p).state = .RUNNING := by
  cases hm : (s.cpu c).mode with
  | idle => exact .inl (h.idle c hm).2
  | scan i => exact .inl (h.scan c i hm).2
  | away p =>
    obtain ⟨hr, hp, -⟩ := h.away c p hm
    exact .inr ⟨p, rfl, hp, hr⟩
  | back p =>
    have := (h.back c p hm).1
    rw [hpt] at this
    cases this

/-- While another process can scan the table, no CPU is left from an exited process. -/
theorem off_zombie (h : Ctl s) (hm : (s.cpu c).mode = .away p) (hpt : s.ptlock = none ∨ s.ptlock = some c)
    (hz : (s.procs z).state = .ZOMBIE) (c' : C) : (s.cpu c').mode ≠ .away z ∧ (s.cpu c').mode ≠ .back z := by
  refine ⟨fun hm' => ?_, fun hm' => ?_⟩
  · rw [(h.away c' z hm').1] at hz
    cases hz
  · have hpt' := (h.back c' z hm').1
    rcases hpt with hpt | hpt <;> rw [hpt] at hpt' <;> cases hpt'
    rw [hm] at hm'
    cases hm'

end Ctl

structure Owned (s : St C L A) : Prop where
  used : ∀ page o, Holds s page o → s.used page = true
  inj : ∀ page o o', Holds s page o → Holds s page o' → o = o'

theorem Roused.dead {q q' : Proc A} (h : Roused q q') (hq : q.state = .UNUSED ∨ q.state = .EMBRYO) :
    q'.state = .UNUSED ∨ q'.state = .EMBRYO := by
  rcases h.state with hs | ⟨hs, -⟩
  · rw [hs]
    exact hq
  · simp [hs] at hq

namespace Owned

variable {s s' : St C L A} {c : C} {p np z : Slot} {page : Nat}

theorem map (h : Owned s) (f : Owner → Owner) (hf : Injective f)
    (hh : ∀ page o, Holds s' page o → Holds s page (f o))
    (hu : ∀ page o, Holds s' page o → s.used page = true → s'.used page = true) : Owned s' where
  used page o ho := hu page o ho (h.used page (f o) (hh page o ho))
  inj page o o' ho ho' := hf (h.inj page _ _ (hh page o ho) (hh page o' ho'))

theorem sub (h : Owned s) (hh : ∀ page o, Holds s' page o → Holds s page o) (hu : s'.used = s.used) : Owned s' :=
  h.map id injective_id hh fun _ _ _ hused => by rw [hu, hused]

theorem drop {o : Owner} (h : Owned s) (ho : Holds s page o)
    (hh : ∀ page o', Holds s' page o' → Holds s page o' ∧ o' ≠ o) (hu : s'.used = update s.used page false) :
    Owned s' := by
  refine h.map id injective_id (fun page' o' ho' => (hh page' o' ho').1) fun page' o' ho' hused => ?_
  obtain ⟨ho'', hne⟩ := hh page' o' ho'
  have : page' ≠ page := fun hp => hne (h.inj page o' o (hp ▸ ho'') ho)
  rw [hu, update_of_ne this, hused]

theorem add (o : Owner) (h : Owned s) (hp : s.used page = false)
    (hh : ∀ page' o', Holds s' page' o' → o' ≠ o ∧ Holds s page' o' ∨ o' = o ∧ page' = page)
    (hu : s'.used = update s.used page true) : Owned s' where
  used page' o' ho' := by
    rw [hu, update_apply]
    split_ifs with hpp
    · rfl
    · rcases hh page' o' ho' with ⟨-, ho⟩ | ⟨-, hpage⟩
      · exact h.used page' o' ho
      · exact absurd hpage hpp
  inj page' o1 o2 h1 h2 := by
    rcases hh page' o1 h1 with ⟨-, ho1⟩ | ⟨ho1, hp1⟩ <;> rcases hh page' o2 h2 with ⟨-, ho2⟩ | ⟨ho2, hp2⟩
    · exact h.inj page' o1 o2 ho1 ho2
    · rw [hp2] at ho1
      rw [h.used page o1 ho1] at hp
      cases hp
    · rw [hp1] at ho2
      rw [h.used page o2 ho2] at hp
      cases hp
    · rw [ho1, ho2]

theorem frame (h : Owned s) (hprocs : ∀ p, (s'.procs p).kstack = (s.procs p).kstack ∧
      (s'.procs p).pgdir = (s.procs p).pgdir ∧
      ((s.procs p).state = .UNUSED ∨ (s.procs p).state = .EMBRYO →
        (s'.procs p).state = .UNUSED ∨ (s'.procs p).state = .EMBRYO))
    (hcall : ∀ p, (s'.call p).copied = (s.call p).copied ∧ (s'.call p).spare = (s.call p).spare)
    (hu : s'.used = s.used) : Owned s' := by
  refine h.sub (fun page o ho => ?_) hu
  cases o with
  | stack p =>
    rw [Holds, ← (hprocs p).1]
    exact ho
  | dir p =>
    refine ⟨(hprocs p).2.1.symm.trans ho.1, ?_⟩
    rcases ho.2 with ⟨hu, he⟩ | hq
    · refine .inl ⟨fun h' => ?_, fun h' => ?_⟩
      · exact ((hprocs p).2.2 (.inl h')).elim hu he
      · exact ((hprocs p).2.2 (.inr h')).elim hu he
    · exact .inr (hq.imp fun q hq => (hcall q).1.symm.trans hq)
  | spare p => exact (hcall p).2.symm.trans ho

theorem frameAt {q : Proc A} (h : Owned s) (hprocs : s'.procs = update s.procs p q)
    (hk : q.kstack = (s.procs p).kstack) (hd : q.pgdir = (s.procs p).pgdir)
    (hst : (s.procs p).state = .UNUSED ∨ (s.procs p).state = .EMBRYO → q.state = .UNUSED ∨ q.state = .EMBRYO)
    (hcall : ∀ p, (s'.call p).copied = (s.call p).copied ∧ (s'.call p).spare = (s.call p).spare)
    (hu : s'.used = s.used) : Owned s' := by
  refine h.frame (fun p' => ?_) hcall hu
  rw [hprocs]
  by_cases hp : p' = p
  · subst hp
    rw [update_self]
    exact ⟨hk, hd, hst⟩
  · rw [update_of_ne hp]
    exact ⟨rfl, rfl, id⟩

theorem congr (h : Owned s) (hprocs : s'.procs = s.procs) (hcall : s'.call = s.call) (hu : s'.used = s.used) :
    Owned s' :=
  h.frame (fun _ => by rw [hprocs]; exact ⟨rfl, rfl, id⟩) (fun _ => by rw [hcall]; exact ⟨rfl, rfl⟩) hu

theorem rouse {procs : Slot → Proc A} (h : Owned s) (hr : ∀ q, Roused (s.procs q) (procs q)) :
    Owned (s.setProcs procs) :=
  h.frame (fun q => ⟨(hr q).kstack, (hr q).pgdir, (hr q).dead⟩) (fun _ => ⟨rfl, rfl⟩) rfl

theorem call_update {call old : Call} (hcall : s.call p = old) (hc : call.copied = old.copied)
    (hs : call.spare = old.spare) (q : Slot) :
    (update s.call p call q).copied = (s.call q).copied ∧ (update s.call p call q).spare = (s.call q).spare := by
  by_cases hq : q = p
  · subst hq
    rw [update_self, hcall]
    exact ⟨hc, hs⟩
  · rw [update_of_ne hq]
    exact ⟨rfl, rfl⟩

theorem waits {o : Op L A} {s₁ : St C L A} (h : Owned s) (hw : s.waits c p o s₁) : Owned s₁ := by
  cases o with
  | wait =>
    obtain ⟨-, -, -, rfl⟩ := hw
    exact h
  | next =>
    obtain ⟨-, -, rfl⟩ := hw
    exact h.frameAt rfl rfl rfl id (fun _ => ⟨rfl, rfl⟩) rfl
  | _ => cases hw

theorem moves {a : Act C L A} (hc : Ctl s) (h : Owned s) (hs : Moves s a s') : Owned s' := by
  cases hs with
  | switch hm hp => exact h.frameAt rfl rfl rfl (by rw [hp]; simp) (fun _ => ⟨rfl, rfl⟩) rfl
  | nop hm hpc => exact h
  | yield hm hpc hpt hheld =>
    exact h.frameAt rfl rfl rfl (by rw [(hc.away _ _ hm).1]; simp) (fun _ => ⟨rfl, rfl⟩) rfl
  | sleepMark hm hpc hpt hheld =>
    exact h.frameAt rfl rfl rfl (by rw [(hc.away _ _ hm).1]; simp) (fun _ => ⟨rfl, rfl⟩) rfl
  | @resume c p pc q hm hr hpt =>
    obtain ⟨hk, hd⟩ := Pc.resume_pages hr
    exact h.frameAt rfl hk hd (by rw [(hc.away c p hm).1]; simp) (fun _ => ⟨rfl, rfl⟩) rfl
  | @exit c p hm hpc hcall hp hpt hheld =>
    refine h.frame (fun q => ?_) (fun _ => ⟨rfl, rfl⟩) rfl
    have hr := exitTable_roused s p q
    rw [St.park_procs, update_apply]
    split_ifs with hq
    · subst hq
      exact ⟨hr.kstack, hr.pgdir, by rw [(hc.away c q hm).1]; simp⟩
    · exact ⟨hr.kstack, hr.pgdir, hr.dead⟩
  | @reap c p z kstack pgdir o s1 hm hw hz hk hd =>
    have hzombie := (firstSlot_zombie hz).2
    -- the stack first, then the directory
    have h1 : Owned ((s1.give kstack).setProc z fun q => { q with kstack := none }) := by
      refine (h.waits hw).drop (o := .stack z) hk (fun page o ho => ?_) rfl
      cases o <;> simp only [Holds, HasDir, St.setProc, St.give, update_apply] at ho ⊢ <;> grind
    have hdir : Holds ((s1.give kstack).setProc z fun q => { q with kstack := none }) pgdir (.dir z) := by
      simp [Holds, HasDir, hd, hzombie]
    have hcopied : ∀ q, (s1.call q).copied ≠ some z := fun q hq => by
      have := (hc.waits hm hw).1.child q z (Call.child_of_copied hq)
      rw [hzombie] at this
      cases this
    refine h1.drop hdir (fun page o ho => ?_) rfl
    cases o <;> simp only [Holds, HasDir, St.setPtlock, St.setPc, St.reap, St.setProc, St.give, update_apply] at ho ⊢ <;>
      grind
  | waitFail hm hw hz hk => exact (h.waits hw).congr rfl rfl rfl
  | @waitSleep c p o s1 hm hw hz hheld =>
    have hr := ((hc.waits hm hw).1.away c p (hc.waits hm hw).2.1).1
    exact (h.waits hw).frameAt rfl rfl rfl (by rw [hr]; simp) (fun _ => ⟨rfl, rfl⟩) rfl
  | wakeup hm hpc hpt => exact h.rouse fun q => wakeup1_roused s.procs q
  | @killHit c p q pid hm hpc hpt hq =>
    refine h.frameAt rfl rfl rfl (fun hst => ?_) (fun _ => ⟨rfl, rfl⟩) rfl
    rw [St.hitBy, if_neg (by rintro hs; simp [hs] at hst)]
    exact hst
  | trap hm hpc hcall => exact h.frameAt rfl rfl rfl id (fun _ => ⟨rfl, rfl⟩) rfl
  | forkAlloc hm hpc hcall hpt hu =>
    exact h.frameAt rfl rfl rfl (fun _ => .inr rfl) (call_update hcall rfl rfl) rfl
  | @stackFail c p np hm hpc hcall =>
    refine h.sub (fun page o ho => ?_) rfl
    cases o <;> simp only [Holds, HasDir, St.setCall, St.setRet, St.setProc, update_apply] at ho ⊢ <;>
      grind [Call.copied, Call.spare]
  | @stackOk c p np page hm hpc hcall hu =>
    refine h.add (.stack np) hu (fun page o ho => ?_) rfl
    cases o <;> simp only [Holds, HasDir, St.setCall, St.setPc, St.setProc, St.take, update_apply] at ho ⊢ <;>
      grind [Call.copied, Call.spare]
  | @copyFail c p np kstack hm hpc hcall hk =>
    refine h.drop (o := .stack np) hk (fun page o ho => ?_) rfl
    cases o <;> simp only [Holds, HasDir, St.setCall, St.setRet, St.setProc, St.give, update_apply] at ho ⊢ <;>
      grind [Call.copied, Call.spare]
  | @copyOk c p np page hm hpc hcall hu =>
    have hE := hc.child p np (by rw [hcall]; rfl)
    have hf := hc.forker p
    refine h.add (.dir np) hu (fun page o ho => ?_) rfl
    cases o <;> simp only [Holds, HasDir, St.setCall, St.setProc, St.take, update_apply] at ho ⊢ <;>
      grind [Call.copied, Call.spare]
  | forkParent hm hpc hcall =>
    exact h.frameAt rfl rfl rfl id (call_update hcall rfl rfl) rfl
  | @forkRun c p np hm hpc hcall hpt =>
    refine h.sub (fun page o ho => ?_) rfl
    cases o <;> simp only [Holds, HasDir, St.setCall, St.setRet, St.setProc, update_apply] at ho ⊢ <;>
      grind [Call.copied, Call.spare]
  | @load c p pgdir o call hm hpc hcall hd =>
    rcases hcall with ⟨-, hcall, rfl⟩ | ⟨old, -, hcall, rfl⟩
    · exact h.frame (fun _ => ⟨rfl, rfl, id⟩) (call_update hcall rfl rfl) rfl
    · exact h.frame (fun _ => ⟨rfl, rfl, id⟩) (call_update hcall rfl rfl) rfl
  | @execAlloc c p page hm hpc hcall hu =>
    refine h.add (.spare p) hu (fun page o ho => ?_) rfl
    cases o <;> simp only [Holds, HasDir, St.setCall, St.take, update_apply] at ho ⊢ <;>
      grind [Call.copied, Call.spare]
  | @execFail c p pgdir hm hpc hcall =>
    refine h.drop (o := .spare p) (by rw [Holds, hcall]; rfl) (fun page o ho => ?_) rfl
    cases o <;> simp only [Holds, HasDir, St.execFail, St.setCall, St.setRet, St.give, update_apply] at ho ⊢ <;>
      grind [Call.copied, Call.spare]
  | @execCommit c p pgdir old hm hpc hcall hd =>
    have hr := (hc.away c p hm).1
    refine h.map (Equiv.swap (.dir p) (.spare p)) (Equiv.injective _) (fun page o ho => ?_) fun _ _ _ hu => hu
    rw [Equiv.swap_apply_def]
    cases o <;> simp only [Holds, HasDir, St.setProc, St.setCall, update_apply] at ho ⊢ <;>
      grind [Holds, HasDir, Call.copied, Call.spare]
  | @execFree c p old hm hpc hcall =>
    refine h.drop (o := .spare p) (by rw [Holds, hcall]; rfl) (fun page o ho => ?_) rfl
    cases o <;> simp only [Holds, HasDir, St.execFree, St.setCall, St.setRet, St.give, update_apply] at ho ⊢ <;>
      grind [Call.copied, Call.spare]
  | _ => exact h.congr rfl rfl rfl

end Owned

structure Loaded (s : St C L A) : Prop where
  stack : ∀ c k, (s.cpu c).stack = some k → ∃ p, (s.cpu c).mode = .away p ∧ (s.procs p).kstack = some k
  cr3 : ∀ c d, (s.cpu c).cr3 = some d → ∃ p, ((s.cpu c).mode = .away p ∨ (s.cpu c).mode = .back p) ∧
    ((s.procs p).pgdir = some d ∨ s.call p = .execSwitch d)

namespace Loaded

variable {s s' : St C L A} {c : C} {p np z : Slot} {page : Nat}

theorem frame (h : Loaded s)
    (hcpu : ∀ c, (s'.cpu c).stack = (s.cpu c).stack ∧ (s'.cpu c).cr3 = (s.cpu c).cr3 ∧ (s'.cpu c).mode = (s.cpu c).mode)
    (hp : ∀ c p, (s.cpu c).mode = .away p ∨ (s.cpu c).mode = .back p →
      (s'.procs p).kstack = (s.procs p).kstack ∧ (s'.procs p).pgdir = (s.procs p).pgdir ∧
        ∀ d, s.call p = .execSwitch d → s'.call p = .execSwitch d) : Loaded s' where
  stack c k hk := by
    obtain ⟨hstack, -, hm⟩ := hcpu c
    obtain ⟨p, hm', hk'⟩ := h.stack c k (hstack.symm.trans hk)
    exact ⟨p, hm.trans hm', (hp c p (.inl hm')).1.trans hk'⟩
  cr3 c d hd := by
    obtain ⟨-, hcr3, hm⟩ := hcpu c
    obtain ⟨p, hm', hd'⟩ := h.cr3 c d (hcr3.symm.trans hd)
    rw [hm]
    exact ⟨p, hm', hd'.imp (hp c p hm').2.1.trans ((hp c p hm').2.2 d)⟩

theorem congr (h : Loaded s) (hcpu : s'.cpu = s.cpu) (hprocs : s'.procs = s.procs) (hcall : s'.call = s.call) :
    Loaded s' :=
  h.frame (fun _ => by rw [hcpu]; exact ⟨rfl, rfl, rfl⟩)
    fun _ _ _ => by rw [hprocs, hcall]; exact ⟨rfl, rfl, fun _ hd => hd⟩

theorem scheduler (u : Cpu) {o : Option C} (h : Loaded s) (hm : ∀ p, (s.cpu c).mode ≠ .away p)
    (hu : u.stack = (s.cpu c).stack) (hd : u.cr3 = none ∨ u.cr3 = (s.cpu c).cr3 ∧ ∀ p, (s.cpu c).mode ≠ .back p) :
    Loaded ((s.setCpu c fun _ => u).setPtlock o) := by
  obtain ⟨stack, cr3⟩ := h
  constructor <;> simp only [St.setCpu, St.setPtlock, update_apply] <;> grind

theorem switched {kstack pgdir : Nat} (h : Loaded s)
    (hk : (s.procs p).kstack = some kstack) (hd : (s.procs p).pgdir = some pgdir) :
    Loaded (s.switched c p kstack pgdir) := by
  obtain ⟨stack, cr3⟩ := h
  constructor <;> simp only [St.switched, update_apply] <;> grind

/-- The process leaves its stack; its directory stays loaded. -/
theorem park {q : Proc A} {pc : Pc L A} (h : Loaded s) (hm : (s.cpu c).mode = .away p)
    (hk : q.kstack = (s.procs p).kstack) (hd : q.pgdir = (s.procs p).pgdir) : Loaded (s.park c p q pc) := by
  obtain ⟨stack, cr3⟩ := h
  constructor <;> simp only [St.park, update_apply] <;> grind

theorem setEntry (q : Proc A) (h : Loaded s) (hk : q.kstack = (s.procs p).kstack)
    (hd : q.pgdir = (s.procs p).pgdir) : Loaded (s.setProc p fun _ => q) := by
  refine h.frame (fun _ => ⟨rfl, rfl, rfl⟩) fun c' p' hm => ?_
  rw [St.setProc_procs, update_apply]
  split_ifs with hp
  · subst hp
    exact ⟨hk, hd, fun _ hd => hd⟩
  · exact ⟨rfl, rfl, fun _ hd => hd⟩

theorem rouse {procs : Slot → Proc A} (h : Loaded s) (hr : ∀ q, Roused (s.procs q) (procs q)) :
    Loaded (s.setProcs procs) :=
  h.frame (fun _ => ⟨rfl, rfl, rfl⟩) fun _ p _ => ⟨(hr p).kstack, (hr p).pgdir, fun _ hd => hd⟩

theorem setHeld (n : Nat) (h : Loaded s) : Loaded (s.setCpu c fun u => { u with held := n }) := by
  refine h.frame (fun c' => ?_) fun _ _ _ => ⟨rfl, rfl, fun _ hd => hd⟩
  rw [St.setCpu_cpu, update_apply]
  split_ifs with hc
  · subst hc
    exact ⟨rfl, rfl, rfl⟩
  · exact ⟨rfl, rfl, rfl⟩

theorem waits {o : Op L A} {s₁ : St C L A} (h : Loaded s) (hw : s.waits c p o s₁) : Loaded s₁ := by
  cases o with
  | wait =>
    obtain ⟨-, -, -, rfl⟩ := hw
    exact h
  | next =>
    obtain ⟨-, -, rfl⟩ := hw
    exact h.setEntry _ rfl rfl
  | _ => cases hw

theorem setOff (q : Proc A) (h : Loaded s)
    (hp : ∀ c, (s.cpu c).mode ≠ .away p ∧ (s.cpu c).mode ≠ .back p) : Loaded (s.setProc p fun _ => q) := by
  refine h.frame (fun _ => ⟨rfl, rfl, rfl⟩) fun c' p' hm => ?_
  have hne : p' ≠ p := by
    rintro rfl
    exact hm.elim (hp c').1 (hp c').2
  rw [St.setProc_procs, update_of_ne hne]
  exact ⟨rfl, rfl, fun _ hd => hd⟩

theorem setCall (call : Call) (h : Loaded s) (hne : ∀ d, s.call p ≠ .execSwitch d) : Loaded (s.setCall p call) := by
  refine h.frame (fun _ => ⟨rfl, rfl, rfl⟩) fun c' p' hm => ⟨rfl, rfl, fun d hd => ?_⟩
  rw [St.setCall_call, update_of_ne, hd]
  rintro rfl
  exact hne d hd

theorem fork (q : Proc A) (call : Call) (hc : Ctl s) (h : Loaded s) (hcall : (s.call p).child = some np) :
    Loaded ((s.setProc np fun _ => q).setCall p call) := by
  refine (h.setOff q (hc.off_embryo (hc.child p np hcall))).setCall call fun d hd => ?_
  rw [St.setProc_call] at hd
  rw [hd] at hcall
  cases hcall

theorem load {pgdir : Nat} (call : Call) (hc : Ctl s) (h : Loaded s) (hm : (s.cpu c).mode = .away p)
    (hd : (s.procs p).pgdir = some pgdir) :
    Loaded ((s.setCpu c fun u => { u with cr3 := some pgdir }).setCall p call) := by
  have hother : ∀ c', c' ≠ c → (s.cpu c').mode ≠ .away p ∧ (s.cpu c').mode ≠ .back p := fun c' hne => by
    refine ⟨fun hm' => hne (hc.unique c' c p hm' hm), fun hm' => ?_⟩
    have hr := (hc.away c p hm).1
    rcases (hc.back c' p hm').2 with hst | hst | hst <;> rw [hst] at hr <;> cases hr
  obtain ⟨stack, cr3⟩ := h
  constructor <;> simp only [St.setCpu, St.setCall, update_apply] <;> grind

/-- The old directory of an `exec` may still be loaded. -/
theorem commit {pgdir old : Nat} (h : Loaded s) (hd : (s.procs p).pgdir = some old)
    (hne : ∀ d, s.call p ≠ .execSwitch d) :
    Loaded ((s.setProc p fun q => { q with pgdir := some pgdir }).setCall p (.execSwitch old)) := by
  obtain ⟨stack, cr3⟩ := h
  constructor <;> simp only [St.setProc, St.setCall, update_apply] <;> grind

theorem moves {a : Act C L A} (hc : Ctl s) (h : Loaded s) (hs : Moves s a s') : Loaded s' := by
  cases hs with
  | idle hm hpt => exact h.scheduler _ (by simp [hm]) rfl (.inr ⟨rfl, by simp [hm]⟩)
  | @skip c i hm =>
    have := h.scheduler (o := s.ptlock) { s.cpu c with mode := .scan (i + 1) } (by simp [hm]) rfl (.inr ⟨rfl, by simp [hm]⟩)
    exact this
  | done hm hpt => exact h.scheduler _ (by simp [hm]) rfl (.inr ⟨rfl, by simp [hm]⟩)
  | switch hm hp hk hd => exact h.switched hk hd
  | @back c p hm =>
    have := h.scheduler (o := s.ptlock) { s.cpu c with cr3 := none, proc := none, mode := .scan (p + 1) } (by simp [hm])
      rfl (.inl rfl)
    exact this
  | nop hm hpc => exact h
  | acquire hm ho hl => exact (h.setHeld _).congr rfl rfl rfl
  | release hm hpc hl => exact (h.setHeld _).congr rfl rfl rfl
  | yield hm hpc hpt hheld => exact h.park hm rfl rfl
  | sleepRelease hm hpc hl => exact (h.setHeld _).congr rfl rfl rfl
  | sleepMark hm hpc hpt hheld => exact h.park hm rfl rfl
  | @resume c p pc q hm hr hpt =>
    obtain ⟨hk, hd⟩ := Pc.resume_pages hr
    exact (h.setEntry q hk hd).congr rfl rfl rfl
  | @exit c p hm hpc hcall hp hpt hheld => exact (h.rouse fun q => exitTable_roused s p q).park hm rfl rfl
  | @reap c p z kstack pgdir o s1 hm hw hz hk hd =>
    obtain ⟨hc1, hm1, hpt⟩ := hc.waits hm hw
    exact ((h.waits hw).setOff _ (hc1.off_zombie hm1 hpt (firstSlot_zombie hz).2)).congr rfl rfl rfl
  | waitFail hm hw hz hk => exact (h.waits hw).congr rfl rfl rfl
  | waitSleep hm hw hz hheld =>
    obtain ⟨-, hm1, -⟩ := hc.waits hm hw
    exact (h.waits hw).park hm1 rfl rfl
  | wakeup hm hpc hpt => exact h.rouse fun q => wakeup1_roused s.procs q
  | @killHit c p q pid hm hpc hpt hq =>
    exact (h.setEntry (p := q) (St.hitBy (s.procs q)) rfl rfl).congr rfl rfl rfl
  | trap hm hpc hcall => exact h.setEntry _ rfl rfl
  | @forkAlloc c p np hm hpc hcall hpt hu =>
    have := h.setEntry (p := np) { s.procs np with state := .EMBRYO, pid := s.nextpid } rfl rfl
    exact (this.setCall (p := p) (.forkStack np) (by simp [hcall])).congr rfl rfl rfl
  | @stackFail c p np hm hpc hcall => exact (h.fork _ _ hc (by rw [hcall]; rfl)).congr rfl rfl rfl
  | @stackOk c p np page hm hpc hcall hu => exact (h.fork _ _ hc (by rw [hcall]; rfl)).congr rfl rfl rfl
  | @copyFail c p np kstack hm hpc hcall hk => exact (h.fork _ _ hc (by rw [hcall]; rfl)).congr rfl rfl rfl
  | @copyOk c p np page hm hpc hcall hu => exact (h.fork _ _ hc (by rw [hcall]; rfl)).congr rfl rfl rfl
  | @forkParent c p np hm hpc hcall => exact h.fork _ _ hc (by rw [hcall]; rfl)
  | @forkRun c p np hm hpc hcall hpt => exact (h.fork _ _ hc (by rw [hcall]; rfl)).congr rfl rfl rfl
  | @load c p pgdir o call hm hpc hcall hd => exact h.load call hc hm hd
  | execAlloc hm hpc hcall hu => exact (h.setCall _ (by simp [hcall])).congr rfl rfl rfl
  | execFail hm hpc hcall => exact (h.setCall _ (by simp [hcall])).congr rfl rfl rfl
  | @execCommit c p pgdir old hm hpc hcall hd => exact h.commit hd (by simp [hcall])
  | execFree hm hpc hcall => exact (h.setCall _ (by simp [hcall])).congr rfl rfl rfl
  | _ => exact h.congr rfl rfl rfl

end Loaded

section Freed

variable {s s' : St C L A} {c : C} {page : Nat}

def Owner.Off (s : St C L A) : Owner → Prop
  | .stack p | .dir p => ∀ c, (s.cpu c).mode ≠ .away p ∧ (s.cpu c).mode ≠ .back p
  | .spare p => ∀ d, s.call p ≠ .execSwitch d

theorem HasDir.of_mode (hc : Ctl s) {p : Slot} (hm : (s.cpu c).mode = .away p ∨ (s.cpu c).mode = .back p) :
    HasDir s p := by
  left
  rcases hm with hm | hm
  · rw [(hc.away c p hm).1]
    decide
  · rcases (hc.back c p hm).2 with hst | hst | hst <;> rw [hst] <;> decide

theorem not_loaded {o : Owner} (hc : Ctl s) (ho : Owned s) (hl : Loaded s) (hp : Holds s page o) (hoff : o.Off s)
    (c : C) : (s.cpu c).stack ≠ some page ∧ (s.cpu c).cr3 ≠ some page := by
  refine ⟨fun hk => ?_, fun hd => ?_⟩
  · obtain ⟨p, hm, hk⟩ := hl.stack c page hk
    obtain rfl := ho.inj page o (.stack p) hp hk
    exact (hoff c).1 hm
  · obtain ⟨p, hm, hd | hd⟩ := hl.cr3 c page hd
    · obtain rfl := ho.inj page o (.dir p) hp ⟨hd, .of_mode hc hm⟩
      exact hm.elim (hoff c).1 (hoff c).2
    · obtain rfl := ho.inj page o (.spare p) hp (show (s.call p).spare = some page by rw [hd]; rfl)
      exact hoff page hd

theorem waits_pages {o : Op L A} {p : Slot} {s₁ : St C L A} (hw : s.waits c p o s₁) : s₁.cpu = s.cpu ∧ s₁.used = s.used ∧
    ∀ q, (s₁.procs q).kstack = (s.procs q).kstack ∧ (s₁.procs q).pgdir = (s.procs q).pgdir ∧
      (s₁.procs q).state = (s.procs q).state := by
  cases o with
  | wait =>
    obtain ⟨-, -, -, rfl⟩ := hw
    exact ⟨rfl, rfl, fun _ => ⟨rfl, rfl, rfl⟩⟩
  | next =>
    obtain ⟨-, -, rfl⟩ := hw
    refine ⟨rfl, rfl, fun q => ?_⟩
    rw [St.setProc_procs, update_apply]
    split_ifs with hq
    · subst hq
      exact ⟨rfl, rfl, rfl⟩
    · exact ⟨rfl, rfl, rfl⟩
  | _ => cases hw

/-- The pages a step gives back have an owner that no CPU works on. -/
theorem freed_owner {a : Act C L A} (hc : Ctl s) (hs : Moves s a s') (hu : s.used page = true)
    (hu' : s'.used page = false) : ∃ o : Owner, Holds s page o ∧ o.Off s := by
  have htake {page'} (h : update s.used page' true page = false) : False := by
    rw [update_apply] at h
    split_ifs at h
    cases hu.symm.trans h
  have hgive {page'} (h : update s.used page' false page = false) : page = page' := by
    rw [update_apply] at h
    split_ifs at h with hp
    · exact hp
    · cases hu.symm.trans h
  cases hs with
  | @reap c p z kstack pgdir o s1 hm hw hz hk hd =>
    obtain ⟨hc1, hm1, hpt⟩ := hc.waits hm hw
    obtain ⟨hpar, hzombie⟩ := firstSlot_zombie hz
    have hoff := hc1.off_zombie hm1 hpt hzombie
    obtain ⟨hcpu, hused, hprocs⟩ := waits_pages hw
    obtain ⟨hk', hd', hst⟩ := hprocs z
    rw [hcpu] at hoff
    change update (update s1.used kstack false) pgdir false page = false at hu'
    rw [update_apply, hused] at hu'
    split_ifs at hu' with hp
    · refine ⟨.dir z, ⟨by rw [hp, ← hd', hd], .inl ?_⟩, hoff⟩
      rw [← hst, hzombie]
      decide
    · exact ⟨.stack z, by rw [Holds, hgive hu', ← hk', hk], hoff⟩
  | waitFail hm hw hz hk => cases hu.symm.trans ((waits_pages hw).2.1 ▸ hu')
  | waitSleep hm hw hz hheld => cases hu.symm.trans ((waits_pages hw).2.1 ▸ hu')
  | stackOk hm hpc hcall hu1 => exact (htake hu').elim
  | copyOk hm hpc hcall hu1 => exact (htake hu').elim
  | execAlloc hm hpc hcall hu1 => exact (htake hu').elim
  | @copyFail c p np kstack hm hpc hcall hk =>
    have hE := hc.child p np (by rw [hcall]; rfl)
    exact ⟨.stack np, by rw [Holds, hgive hu', hk], hc.off_embryo hE⟩
  | @execFail c p pgdir hm hpc hcall =>
    exact ⟨.spare p, by rw [Holds, hgive hu', hcall]; rfl, by simp [Owner.Off, hcall]⟩
  | @execFree c p old hm hpc hcall =>
    exact ⟨.spare p, by rw [Holds, hgive hu', hcall]; rfl, by simp [Owner.Off, hcall]⟩
  | _ => cases hu.symm.trans hu'

end Freed
theorem init_owned : Owned (init : St C L A) := by
  have hp : ∀ page o, Holds (init : St C L A) page o → o = .stack 0 ∧ page = 0 ∨ o = .dir 0 ∧ page = 1 := by
    intro page o ho
    cases o with
    | stack p =>
      simp only [Holds, init] at ho
      split_ifs at ho with h
      simp_all
    | dir p =>
      simp only [Holds, init] at ho
      split_ifs at ho with h <;> simp_all
    | spare p => cases ho
  constructor
  · intro page o ho
    rcases hp page o ho with ⟨-, rfl⟩ | ⟨-, rfl⟩ <;> simp [init]
  · intro page o o' ho ho'
    rcases hp page o ho with ⟨rfl, rfl⟩ | ⟨rfl, rfl⟩ <;> rcases hp _ o' ho' with ⟨rfl, h⟩ | ⟨rfl, h⟩ <;> simp_all

theorem init_loaded : Loaded (init : St C L A) := by
  constructor <;> intro c page h <;> cases h

theorem reachable_pages {s : St C L A} (h : Machine.Reachable step init s) : Ctl s ∧ Owned s ∧ Loaded s :=
  h.inv (I := fun s => Ctl s ∧ Owned s ∧ Loaded s) ⟨init_ctl, init_owned, init_loaded⟩ fun _ _ _ ⟨hc, ho, hl⟩ _ hs =>
    have hm := step_moves hs
    ⟨hc.moves hm, ho.moves hc hm, hl.moves hc hm⟩

/-- With `ptable.lock` free, RUNNING processes and the processes of CPUs are the same, one CPU each;
and no step gives back a page that is the stack a CPU executes on or the directory it has loaded. -/
theorem reachable_scheduler_exclusive {s : St C L A} (h : Machine.Reachable step init s) :
    (s.ptlock = none →
      (∀ p, (s.procs p).state = .RUNNING → ∃! c, (s.cpu c).proc = some p) ∧
      ∀ c, (s.cpu c).proc = none ∨ ∃ p, (s.cpu c).proc = some p ∧ (s.procs p).state = .RUNNING) ∧
    ∀ a s', step s a = some s' → ∀ page, s.used page = true → s'.used page = false →
      ∀ c, (s.cpu c).stack ≠ some page ∧ (s.cpu c).cr3 ≠ some page := by
  obtain ⟨hc, ho, hl⟩ := reachable_pages h
  refine ⟨fun hpt => ⟨fun p hp => ?_, fun c => ?_⟩, fun a s' hs page hu hu' => ?_⟩
  · obtain ⟨c, hm⟩ := hc.running p hp
    refine ⟨c, (hc.away c p hm).2.1, fun c' (hp' : (s.cpu c').proc = some p) => ?_⟩
    rcases hc.free hpt c' with hn | ⟨p', hm', hp'', -⟩
    · rw [hn] at hp'
      cases hp'
    · rw [hp''] at hp'
      cases hp'
      exact hc.unique c' c p hm' hm
  · rcases hc.free hpt c with hn | ⟨p, -, hp, hr⟩
    · exact .inl hn
    · exact .inr ⟨p, hp, hr⟩
  · obtain ⟨o, hp, hoff⟩ := freed_owner hc (step_moves hs) hu hu'
    exact not_loaded hc ho hl hp hoff

theorem forkExit_wait : ((Machine.run step init forkExit).any fun s =>
    (step s (.proc false .wait)).any fun s' => (s.used 2 && !s'.used 2) && (s.used 3 && !s'.used 3)) = true := by
  decide +kernel

/-- The parent on the first CPU reaps the child, whose stack is page 2 and whose directory is page 3. -/
theorem reachable_scheduler_exclusive_forkExit : ∃ s s' : St Bool Unit Unit, Machine.Reachable step init s ∧
    step s (.proc false .wait) = some s' ∧ (s.used 2 = true ∧ s'.used 2 = false) ∧
    (s.used 3 = true ∧ s'.used 3 = false) ∧ ∀ c, (s.cpu c).stack ≠ some 2 ∧ (s.cpu c).cr3 ≠ some 3 := by
  obtain ⟨s, hrun, hs⟩ := (Option.any_eq_true _ _).1 forkExit_wait
  obtain ⟨s', hstep, hused⟩ := (Option.any_eq_true _ _).1 hs
  simp only [Bool.and_eq_true, Bool.not_eq_true'] at hused
  obtain ⟨h2, h3⟩ := hused
  have hr := Machine.Reach.of_run hrun
  refine ⟨s, s', hr, hstep, h2, h3, fun c => ⟨?_, ?_⟩⟩
  · exact ((reachable_scheduler_exclusive hr).2 _ s' hstep 2 h2.1 h2.2 c).1
  · exact ((reachable_scheduler_exclusive hr).2 _ s' hstep 3 h3.1 h3.2 c).2

end Xv6.Sched
