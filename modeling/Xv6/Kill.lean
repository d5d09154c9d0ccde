import Xv6.Life

/-!
# `kill`

`kill` compares pids over the whole table, free slots included. A slot that was never used has pid 0,
and a failing `fork` leaves its pid behind, so `kill` can mark a slot nobody lives in; the next
process in that slot is then born killed. `killOk` rules this out.
-/

namespace Xv6.Sched

open Function
open ProcMem (NPROC ProcState)

set_option linter.unusedSectionVars false

variable {C L A : Type} [DecidableEq C] [DecidableEq L] [DecidableEq A]

/-- `kill` is not called with a pid that a free slot carries, and no `fork` fails whose child has been
killed. -/
def St.killOk (s : St C L A) : Act C L A → Bool
  | .proc _ (.kill pid) => ∀ z, (s.procs z).state = .UNUSED → (s.procs z).pid ≠ pid
  | a =>
    match s.lifeOp a with
    | .abandon np => !(s.procs np).killed
    | _ => true

/-- The process is killed in a step: by its pid, or by a trap of its own. -/
def St.hitIn (s : St C L A) (q : Slot) : Act C L A → Bool
  | .proc _ (.kill pid) => (s.procs q).state ≠ .UNUSED ∧ (s.procs q).pid = pid
  | .proc c .trap => (s.cpu c).mode = .away q
  | _ => false

/-- Which processes have been killed since they were created. -/
def hitsNext (s : St C L A) (a : Act C L A) (s' : St C L A) (hit : Slot → Bool) (q : Slot) : Bool :=
  if (s.procs q).state = .UNUSED ∧ (s'.procs q).state ≠ .UNUSED then false else hit q || s.hitIn q a

abbrev stepHit : St C L A × (Slot → Bool) → Act C L A → Option (St C L A × (Slot → Bool)) :=
  Machine.along step fun s a s' hit => some (hitsNext s a s' hit)

/-- Whoever is marked lives, and has been hit. -/
def Lives.Hit (t : Lives) (hit : Slot → Bool) : Prop :=
  ∀ q, (t.core q).killed = true → (t.core q).life ≠ .free ∧ hit q = true

theorem Lives.Hit.step {t t' : Lives} {hit hit' : Slot → Bool} {op : LifeOp} (h : t.Hit hit)
    (hs : t.step op = some t')
    (habandon : ∀ np, op = .abandon np → (t.core np).killed = false)
    (hhit : ∀ q, op = .hit q → (t.core q).life ≠ .free ∧ hit' q = true)
    (hkeep : ∀ q, hit q = true → (t.core q).life ≠ .free → hit' q = true) : t'.Hit hit' := by
  have hold : ∀ q, (t.core q).killed = true → (t.core q).life ≠ .free ∧ hit' q = true := fun q hk =>
    ⟨(h q hk).1, hkeep q (h q hk).2 (h q hk).1⟩
  intro q hk
  cases op with
  | none => cases hs; exact hold q hk
  | exit p =>
    obtain ⟨hl, ⟨⟩⟩ := Option.ite_none_right_eq_some.1 hs
    simp only [Lives.set, Lives.orphan, update_apply] at hk ⊢
    grind
  | hit p =>
    cases hs
    simp only [Lives.set, update_apply] at hk ⊢
    grind
  | _ =>
    obtain ⟨hl, ⟨⟩⟩ := Option.ite_none_right_eq_some.1 hs
    simp only [Lives.set, update_apply] at hk ⊢
    grind

section Reachable

variable {s s' : St C L A} {a : Act C L A} {hit : Slot → Bool}

theorem abandon_clean {np : Slot} (hok : s.killOk a = true) (hop : s.lifeOp a = .abandon np) :
    (s.procs np).killed = false := by
  unfold St.killOk at hok
  split at hok
  · obtain ⟨c, p, o, ha, hm, hop'⟩ := lifeOp_ne (s := s) (by rw [hop]; simp)
    cases ha
    rw [hop', St.opOf] at hop
    split at hop <;> cases hop
  · rw [hop] at hok
    simpa using hok

theorem hit_target {q : Slot} (hc : Ctl s) (hok : s.killOk a = true) (hop : s.lifeOp a = .hit q) :
    (s.procs q).state ≠ .UNUSED ∧ s.hitIn q a = true := by
  obtain ⟨c, p, o, rfl, hm, hop'⟩ := lifeOp_ne (s := s) (a := a) (by rw [hop]; simp)
  rcases opOf_hit (hop'.symm.trans hop) with ⟨rfl, rfl⟩ | ⟨pid, rfl, hq⟩
  · refine ⟨by rw [(hc.away c p hm).1]; simp, ?_⟩
    exact decide_eq_true hm
  · have hpid : (s.procs q).pid = pid := of_decide_eq_true (firstSlot_eq hq)
    have hlive : (s.procs q).state ≠ .UNUSED := fun hu => of_decide_eq_true hok q hu hpid
    exact ⟨hlive, decide_eq_true ⟨hlive, hpid⟩⟩

theorem reachable_hit {x : St C L A × (Slot → Bool)}
    (h : Machine.Reach stepHit (fun x a => x.1.killOk a = true) (init, fun _ => false) x) : x.1.lives.Hit x.2 := by
  induction h with
  | refl =>
    intro q hq
    simp only [St.lives, init, Proc.core] at hq
    split_ifs at hq
  | @tail x y a h hok hs ih =>
    obtain ⟨hs, he⟩ := Machine.along_eq hs
    have hr : Machine.Reachable step init x.1 := h.fst_reachable
    rw [← Option.some.inj he]
    refine ih.step (step_lives hr hs) (fun np => abandon_clean hok) (fun q hop => ?_) fun q hq hlife => ?_
    · obtain ⟨hlive, hin⟩ := hit_target (reachable_ctl hr) hok hop
      refine ⟨fun hl => hlive (life_eq_free.1 hl), ?_⟩
      rw [hitsNext, if_neg fun hu => hlive hu.1, hin, Bool.or_true]
    · rw [hitsNext, if_neg fun hu => hlife (life_eq_free.2 hu.1), hq, Bool.true_or]

/-- The entry `kill` changes is that of the living process with the pid, if there is one. -/
theorem kill_eq {c : C} {p : Slot} {pid : Int} (hp : s.lives.Pids) (hok : s.killOk (.proc c (.kill pid)) = true)
    (hm : (s.cpu c).mode = .away p) (hs : Moves s (.proc c (.kill pid)) s') :
    (∃ q, (s.procs q).state ≠ .UNUSED ∧ (s.procs q).pid = pid ∧ s' = (s.setProc q St.hitBy).setRet p 0 ∧
      ∀ r, (s.procs r).pid = pid → r = q) ∨
    (∀ q, (s.procs q).pid ≠ pid) ∧ s' = s.setRet p (-1) := by
  cases hs with
  | acquire hm' ho => simp at ho
  | reap hm' hw => cases hw
  | waitFail hm' hw => cases hw
  | waitSleep hm' hw => cases hw
  | load hm' hpc hc => simp at hc
  | @killHit c p' q pid hm' hpc hpt hq =>
    cases hm.symm.trans hm'
    have hpid : (s.procs q).pid = pid := of_decide_eq_true (firstSlot_eq hq)
    have hlive : (s.procs q).state ≠ .UNUSED := fun hu => of_decide_eq_true hok q hu hpid
    refine .inl ⟨q, hlive, hpid, rfl, fun r hr => ?_⟩
    exact (hp.inj q r (fun hl => hlive (life_eq_free.1 hl)) (hpid.trans hr.symm)).symm
  | @killMiss c p' pid hm' hpc hpt hq =>
    cases hm.symm.trans hm'
    exact .inr ⟨fun q => of_decide_eq_false (firstSlot_none hq q), rfl⟩

end Reachable

/-- In a run without the calls ruled out by `killOk`, `kill` returns 0 exactly if a living process has
the pid, and changes that process only; whoever is marked has been hit since it was created, and
nobody is created with the mark. -/
theorem reachable_kill_target {s : St C L A} {hit : Slot → Bool}
    (hr : Machine.Reach stepHit (fun x a => x.1.killOk a = true) (init, fun _ => false) (s, hit)) :
    (∀ q, (s.procs q).state ≠ .UNUSED → (s.procs q).killed = true → hit q = true) ∧
    ∀ a s', s.killOk a = true → step s a = some s' →
      (∀ np, (s.procs np).state = .UNUSED → (s'.procs np).state ≠ .UNUSED → (s'.procs np).killed = false) ∧
      ∀ c p pid, a = .proc c (.kill pid) → (s.cpu c).mode = .away p →
        (s'.ret p = 0 ↔ ∃ q, (s.procs q).state ≠ .UNUSED ∧ (s.procs q).pid = pid) ∧
        (s'.ret p ≠ 0 → s'.ret p = -1) ∧
        (∀ q, s'.procs q ≠ s.procs q → (s.procs q).state ≠ .UNUSED ∧ (s.procs q).pid = pid) ∧
        ∀ q r, (s.procs q).state ≠ .UNUSED → (s.procs q).pid = pid → (s.procs r).pid = pid → r = q := by
  have hhit := reachable_hit hr
  have hr1 : Machine.Reachable step init s := hr.fst_reachable
  refine ⟨fun q _ hk => (hhit q hk).2, fun a s' hok hs => ⟨fun np hu hne => ?_, ?_⟩⟩
  · by_contra hk
    have hstep : stepHit (s, hit) a = some (s', hitsNext s a s' hit) := by rw [stepHit, Machine.along, hs]; rfl
    have hborn : hitsNext s a s' hit np = true :=
      (reachable_hit (hr.tail hok hstep) np (Bool.eq_true_of_not_eq_false hk)).2
    rw [hitsNext, if_pos ⟨hu, hne⟩] at hborn
    cases hborn
  · rintro c p pid rfl hm
    rcases kill_eq (reachable_lives hr1).1 hok hm (step_moves hs) with ⟨q, hlive, hpid, rfl, huniq⟩ | ⟨hno, rfl⟩
    · refine ⟨⟨fun _ => ⟨q, hlive, hpid⟩, fun _ => ?_⟩, fun hne => ?_, fun r hne => ?_, fun r r' _ hr hr' => ?_⟩
      · exact update_self ..
      · exact absurd (update_self ..) hne
      · by_cases hrq : r = q
        · rw [hrq]
          exact ⟨hlive, hpid⟩
        · exact absurd (update_of_ne hrq ..) hne
      · rw [huniq r hr, huniq r' hr']
    · refine ⟨⟨fun h => ?_, fun ⟨q, _, hq⟩ => absurd hq (hno q)⟩, fun _ => ?_, fun r hne => absurd rfl hne,
        fun r _ _ hr _ => absurd hr (hno r)⟩
      · rw [St.setRet_ret, update_self] at h
        cases h
      · exact update_self ..

/-- `init` forks on one CPU and kills its child. -/
def forkKill : List (Act Unit Unit Unit) :=
  let process (o : Op Unit Unit) : Act Unit Unit Unit := .proc () o
  [.scheduler (), .scheduler (), process .next, process .fork, process (.kalloc (some 2)),
    process (.copyuvm (some 3)), process .setParent, process .setRunnable, process (.kill 2)]

theorem forkKill_run : ((Machine.runOk stepHit (fun x a => x.1.killOk a = true)
    ((init : St Unit Unit Unit), fun _ => false) forkKill).any fun x =>
    (x.1.procs 1).state = .RUNNABLE ∧ (x.1.procs 1).killed = true) = true := by decide +kernel

theorem reachable_kill_target_forkKill : ∃ (s : St Unit Unit Unit) (hit : Slot → Bool),
    Machine.Reach stepHit (fun x a => x.1.killOk a = true) (init, fun _ => false) (s, hit) ∧
    (s.procs 1).state = .RUNNABLE ∧ (s.procs 1).killed = true ∧ hit 1 = true := by
  obtain ⟨⟨s, hit⟩, hrun, h⟩ := (Option.any_eq_true _ _).1 forkKill_run
  obtain ⟨hst, hk⟩ := of_decide_eq_true h
  have hr := Machine.Reach.of_runOk hrun
  refine ⟨s, hit, hr, hst, hk, (reachable_kill_target hr).1 1 ?_ hk⟩
  intro hu
  cases hst.symm.trans hu

/-- `init` calls `kill(0)`: it marks the free slot 1 and returns 0, and the process forked next starts
with the mark. In the second run the child kills the process `init` is about to fork, `copyuvm` then
fails, and the next process in that slot, with another pid, has the mark. -/
theorem kill_marks_free_slot : ((Machine.run step (init : St Unit Unit Unit)
      [.scheduler (), .scheduler (), .proc () .next]).any fun s =>
    (∀ q, (s.procs q).state ≠ .UNUSED → (s.procs q).pid ≠ 0) ∧
    (Machine.run step s [.proc () (.kill 0)]).any fun s' => s'.ret 0 = 0 ∧ (s'.procs 1).state = .UNUSED ∧
      (s'.procs 1).killed = true ∧
      (Machine.run step s' [.proc () .fork, .proc () (.kalloc (some 2)), .proc () (.copyuvm (some 3)),
        .proc () .setParent, .proc () .setRunnable]).any fun s' =>
          (s'.procs 1).state = .RUNNABLE ∧ (s'.procs 1).pid = 2 ∧ (s'.procs 1).killed = true) = true ∧
    ((Machine.run step (init : St Bool Unit Unit)
      [.scheduler false, .scheduler false, .proc false .next, .proc false .fork, .proc false (.kalloc (some 2)),
        .proc false (.copyuvm (some 3)), .proc false .setParent, .proc false .setRunnable,
        .scheduler true, .scheduler true, .scheduler true, .proc true .next,
        .proc false .fork, .proc false (.kalloc (some 4)), .proc true (.kill 3), .proc false (.copyuvm none),
        .proc false .fork]).any fun s =>
      (s.procs 2).state = .EMBRYO ∧ (s.procs 2).pid = 4 ∧ (s.procs 2).killed = true) = true := by
  decide +kernel

end Xv6.Sched
