import Xv6.LogCrash

/-!
# Operations survive a crash as a whole

Which operations a group is made of: the updates of one operation are all recorded in one group,
so a crash that keeps the first `k` groups of a boot keeps all of an operation or nothing.
-/

namespace Xv6.Log

open Function Tally

variable {ι : Type} {g : Geometry} {s s' : St ι}

/-- All groups that were ever committed, over all boots. -/
def St.history (s : St ι) : List (List Update) := (s.past.map Prod.fst).flatten ++ s.groups

/-- No operation has an update in both groups. -/
def Apart (us vs : List Update) : Prop := ∀ u ∈ us, ∀ v ∈ vs, u.op ≠ v.op

/-- Operation numbers are used once, and an operation that goes on has only updates in the group
that is being formed. -/
structure OpIds (s : St ι) : Prop where
  apart : (s.history ++ [s.forming]).Pairwise Apart
  used : ∀ us ∈ s.history ++ [s.forming], ∀ u ∈ us, u.op < s.nextOp
  active : ∀ p op held, s.pc p = .inOp op held → op < s.nextOp ∧ ∀ us ∈ s.history, ∀ u ∈ us, u.op ≠ op

theorem history_boot (d : Nat → Block) (n : Nat) (past : List (List (List Update) × Nat)) :
    (boot d n past : St ι).history = (past.map Prod.fst).flatten := by simp [St.history, boot]

theorem history_crash :
    (boot s.disk s.nextOp (s.past ++ [(s.groups, s.returned)]) : St ι).history = s.history := by
  rw [history_boot]
  simp [St.history]

namespace OpIds

theorem init (d : Nat → Block) : OpIds (boot d 0 [] : St ι) := by
  have hh : (boot d 0 [] : St ι).history = [] := by simp [history_boot]
  refine ⟨?_, fun us hus u hu => ?_, nofun⟩
  · rw [hh]; exact List.pairwise_singleton _ _
  · rw [hh] at hus
    obtain rfl : us = [] := List.mem_singleton.1 hus
    cases hu

theorem of_eq (h : OpIds s) (hh : s'.history = s.history) (hf : s'.forming = s.forming)
    (hn : s'.nextOp = s.nextOp)
    (hpc : ∀ p op held, s'.pc p = .inOp op held → ∃ held', s.pc p = .inOp op held') : OpIds s' := by
  refine ⟨?_, ?_, fun p op held hp => ?_⟩
  · rw [hh, hf]; exact h.apart
  · rw [hh, hf, hn]; exact h.used
  · obtain ⟨held', hp'⟩ := hpc p op held hp
    rw [hh, hn]; exact h.active p op held' hp'

theorem of_closed {gs : List (List Update)} (hh : s'.history = gs) (hf : s'.forming = [])
    (hgs : gs.Pairwise Apart) (hused : ∀ us ∈ gs, ∀ u ∈ us, u.op < s'.nextOp)
    (hpc : ∀ p op held, s'.pc p ≠ .inOp op held) : OpIds s' := by
  refine ⟨?_, fun us hus u hu => ?_, fun p op held hp => absurd hp (hpc p op held)⟩
  · rw [hh, hf, List.pairwise_append]
    exact ⟨hgs, List.pairwise_singleton _ _, by simp [Apart]⟩
  · rw [hh, hf, List.mem_append, List.mem_singleton] at hus
    rcases hus with hus | rfl
    · exact hused us hus u hu
    · cases hu

theorem recoverStep (h : OpIds s) (hs : recoverStep g s = some s') : OpIds s' := by
  unfold Log.recoverStep at hs
  repeat' split at hs
  all_goals cases hs
  all_goals exact h.of_eq rfl rfl rfl fun q op held hq => ⟨held, hq⟩

variable [DecidableEq ι]

theorem of_move {p : ι} {x : Pc} (h : OpIds s) (hh : s'.history = s.history) (hf : s'.forming = s.forming)
    (hn : s'.nextOp = s.nextOp) (hpc : s'.pc = update s.pc p x)
    (hx : ∀ op held, x = .inOp op held → ∃ held', s.pc p = .inOp op held') : OpIds s' := by
  refine h.of_eq hh hf hn fun q op held hq => ?_
  rw [hpc] at hq
  rcases eq_or_ne q p with rfl | hqp
  · rw [update_self] at hq
    exact hx op held hq
  · exact ⟨held, by rwa [update_of_ne hqp] at hq⟩

theorem beginOp {p : ι} (h : OpIds s) (hs : beginOp s p = some s') : OpIds s' := by
  unfold Log.beginOp at hs
  split at hs
  · split at hs
    · cases hs
    split at hs
    · cases hs
    cases hs
    have hused : ∀ us ∈ s.history ++ [s.forming], ∀ u ∈ us, u.op < s.nextOp := h.used
    refine ⟨h.apart, fun us hus u hu => (hused us hus u hu).trans (Nat.lt_succ_self _),
      fun q op held hq => ?_⟩
    rcases eq_or_ne q p with rfl | hqp
    · obtain ⟨rfl, -⟩ : s.nextOp = op ∧ [] = held := by simpa [St.setPc] using hq
      exact ⟨Nat.lt_succ_self _, fun us hus u hu => (hused us (List.mem_append_left _ hus) u hu).ne⟩
    · have hq' : s.pc q = .inOp op held := by simpa [St.setPc, hqp] using hq
      obtain ⟨h1, h2⟩ := h.active q op held hq'
      exact ⟨h1.trans (Nat.lt_succ_self _), h2⟩
  · cases hs

theorem logWrite {p : ι} {b : Nat} (h : OpIds s) (hs : logWrite g s p b = some s') : OpIds s' := by
  unfold Log.logWrite at hs
  split at hs
  · rename_i op held hp
    split at hs
    · cases hs
    split at hs
    · cases hs
    split at hs
    · cases hs
    cases hs
    obtain ⟨hlt, hne⟩ := h.active p op held hp
    refine ⟨?_, fun us hus u hu => ?_, fun q op' held' hq => ?_⟩
    · obtain ⟨h1, -, h3⟩ := List.pairwise_append.1 h.apart
      refine List.pairwise_append.2 ⟨h1, List.pairwise_singleton _ _, fun us hus vs hvs u hu v hv => ?_⟩
      obtain rfl := List.mem_singleton.1 hvs
      rcases List.mem_append.1 hv with hv | hv
      · exact h3 us hus s.forming (List.mem_singleton_self _) u hu v hv
      · obtain rfl := List.mem_singleton.1 hv
        exact hne us hus u hu
    · rcases List.mem_append.1 hus with hus | hus
      · exact h.used us (List.mem_append_left _ hus) u hu
      · obtain rfl := List.mem_singleton.1 hus
        rcases List.mem_append.1 hu with hu | hu
        · exact h.used s.forming (List.mem_append_right _ (List.mem_singleton_self _)) u hu
        · obtain rfl := List.mem_singleton.1 hu
          exact hlt
    · rcases eq_or_ne q p with rfl | hqp
      · obtain ⟨rfl, -⟩ : op = op' ∧ held.erase b = held' := by simpa [St.setPc] using hq
        exact ⟨hlt, hne⟩
      · exact h.active q op' held' (by simpa [St.setPc, hqp] using hq)
  · cases hs

/-- The last `end_op` of a group records it; no other operation is active then. -/
theorem endOp {p : ι} (h : OpIds s) (hs : endOp s p = some s')
    (hlast : s'.committing = true → ∀ q op held, s'.pc q ≠ .inOp op held) : OpIds s' := by
  unfold Log.endOp at hs
  split at hs
  · split at hs
    · cases hs
    split at hs
    · cases hs
      exact of_closed (List.append_assoc _ _ _).symm rfl h.apart h.used (hlast rfl)
    · cases hs
      exact h.of_move rfl rfl rfl rfl nofun
  · cases hs

theorem modify {p : ι} {b : Nat} {v : Block} (h : OpIds s) (hs : modify g s p b v = some s') :
    OpIds s' := by
  unfold Log.modify at hs
  split at hs
  · rename_i op held hp
    split at hs
    · cases hs
      refine h.of_move rfl rfl rfl rfl ?_
      rintro _ _ ⟨⟩
      exact ⟨held, hp⟩
    · split at hs
      · cases hs
        exact h.of_eq rfl rfl rfl fun q op' held' hq => ⟨held', hq⟩
      · cases hs
  · cases hs

theorem commitStep {p : ι} (h : OpIds s) (hs : commitStep g s p = some s') : OpIds s' := by
  unfold Log.commitStep at hs
  repeat' split at hs
  all_goals cases hs
  all_goals exact h.of_move rfl rfl rfl rfl nofun

theorem step [Fintype ι] {d₀ : Nat → Block} {a : Act ι} (h : OpIds s) (hinv' : Inv g d₀ s')
    (hs : step g s a = some s') : OpIds s' := by
  have hlast : s'.committing = true → ∀ q op held, s'.pc q ≠ .inOp op held := by
    obtain ⟨ks, -, hboot, hup⟩ := hinv'
    intro hc q op held
    rcases hb : s'.boot with _ | c
    · have hr := hup hb
      exact hr.procs.none_active (hr.procs.busy hc) q op held
    · rw [(hboot c hb).pc q]; nofun
  cases a with
  | crash =>
    cases hs
    exact of_closed history_crash rfl (List.pairwise_append.1 h.apart).1
      (fun us hus => h.used us (List.mem_append_left _ hus)) nofun
  | fetch b => cases hs; exact h.of_eq rfl rfl rfl fun q op held hq => ⟨held, hq⟩
  | evict b =>
    simp only [Log.step] at hs
    split at hs
    · cases hs; exact h.of_eq rfl rfl rfl fun q op held hq => ⟨held, hq⟩
    · cases hs
  | recover => exact h.recoverStep hs
  | _ =>
    simp only [Log.step] at hs
    split at hs
    · cases hs
    first
      | exact h.beginOp hs
      | exact h.modify hs
      | exact h.logWrite hs
      | exact h.endOp hs hlast
      | exact h.commitStep hs

end OpIds

/-! ### Recovery comes to its end -/

section Recovery

variable [DecidableEq ι]

theorem recover_install (n t : Nat) (s : St ι) (hb : s.boot = some (.install t)) (hn : s.lh.length - t = n) :
    ∃ k s', Machine.run (step g) s (List.replicate k .recover) = some s' ∧ s'.boot = none := by
  induction n generalizing t s with
  | zero =>
    have hnone : s.lh[t]? = none := List.getElem?_eq_none (by omega)
    have hstep : step g s .recover = some { s with lh := [], boot := some .clearHead } := by
      simp [step, recoverStep, hb, hnone]
    refine ⟨2, { ({ s with lh := [], boot := some .clearHead } : St ι).writeHead g with boot := none }, ?_, rfl⟩
    rw [List.replicate_succ, Machine.run, hstep]
    rfl
  | succ n ih =>
    have hlt : t < s.lh.length := by omega
    obtain ⟨k, s', hrun, hs'⟩ := ih (t + 1)
      { s.installTrans g t s.lh[t] with boot := some (.install (t + 1)) } rfl
      (show s.lh.length - (t + 1) = n by omega)
    refine ⟨k + 1, s', ?_, hs'⟩
    rw [List.replicate_succ, Machine.run]
    have : step g s .recover = some { s.installTrans g t s.lh[t] with boot := some (.install (t + 1)) } := by
      simp [step, recoverStep, hb, List.getElem?_eq_getElem hlt]
    rw [this]
    exact hrun

theorem recovery_completes (s : St ι) :
    ∃ k s', Machine.run (step g) s (.crash :: List.replicate k .recover) = some s' ∧ s'.boot = none := by
  obtain ⟨k, s', hrun, hs'⟩ := recover_install (g := g) _ 0
    { (boot s.disk s.nextOp (s.past ++ [(s.groups, s.returned)]) : St ι) with
      lh := readHeader ((boot s.disk s.nextOp (s.past ++ [(s.groups, s.returned)]) : St ι).bread g.start)
      boot := some (.install 0) } rfl rfl
  exact ⟨k + 1, s', hrun, hs'⟩

end Recovery

/-! ### The disk after any run with crashes -/

variable [Fintype ι] {d₀ : Nat → Block}

theorem Inv.init (hd : readHeader (d₀ g.start) = []) : Inv g d₀ (boot d₀ 0 [] : St ι) := by
  refine ⟨[], .nil, ?_, nofun⟩
  rintro _ ⟨⟩
  exact .of_recovers (.of_empty hd fun _ _ => rfl) 0 []

variable [DecidableEq ι]

theorem reachable_inv (hd : readHeader (d₀ g.start) = []) (h : Machine.Reachable (step g) (boot d₀ 0 []) s) :
    Inv g d₀ s ∧ OpIds s := by
  refine h.inv (I := fun s => Inv g d₀ s ∧ OpIds s) ⟨.init hd, .init d₀⟩ ?_
  rintro s a s' ⟨hi, ho⟩ - hs
  have hi' := hi.step hs
  exact ⟨hi', ho.step hi' hs⟩

/-- Crash atomicity. In every state of every run, with any number of crashes at any point, for each
earlier boot some number of its groups, all that had returned among them, took effect: while no
commit is under way the home blocks on disk are what exactly these groups and the groups of this
boot leave. The updates of one operation are never split over two groups, and recovery always ends. -/
theorem reachable_crash_atomic (hd : readHeader (d₀ g.start) = [])
    (h : Machine.Reachable (step g) (boot d₀ 0 []) s) :
    (∃ ks, List.Forall₂ Survived s.past ks ∧
      (s.boot = none → s.committing = false →
        s.returned = s.groups.length ∧
        ∀ b, g.Home b → s.disk b = apply d₀ (surviving s.past ks ++ s.groups).flatten b)) ∧
    (s.history ++ [s.forming]).Pairwise Apart ∧
    ∃ k s', Machine.run (step g) s (.crash :: List.replicate k .recover) = some s' ∧ s'.boot = none := by
  obtain ⟨⟨ks, hks, -, hup⟩, ho⟩ := reachable_inv hd h
  refine ⟨⟨ks, hks, fun hb hc => ?_⟩, ho.apart, recovery_completes s⟩
  obtain ⟨hr, hq⟩ := (hup hb).quiet hc
  refine ⟨hr, fun b hb => ?_⟩
  rw [List.flatten_append, apply_append, ← contents]
  exact hq.disk b hb

/-- Two operations in one group, a crash after the header is written and one block is installed,
and a second crash in the middle of recovery. -/
def crashTwice : List (Act (Fin 2)) :=
  [.recover, .recover, .recover,
    .begin 0, .begin 1, .modify 0 60 (fun _ => 1), .modify 1 61 (fun _ => 2), .logWrite 0 60,
    .end 0, .logWrite 1 61, .end 1,
    .commit 1, .commit 1, .commit 1, .commit 1, .commit 1, .crash,
    .recover, .recover, .crash,
    .recover, .recover, .recover, .recover, .recover]

theorem reachable_crash_atomic_crashTwice :
    ∃ s, Machine.run (step ⟨2, 30, by decide⟩) (boot (fun _ => Bytes.zero _) 0 []) crashTwice = some s ∧
      s.boot = none ∧ s.committing = false ∧ ∃ ks, List.Forall₂ Survived s.past ks ∧
        s.disk 60 = apply (fun _ => Bytes.zero _) (surviving s.past ks ++ s.groups).flatten 60 := by
  have hrun : ∃ s, Machine.run (step ⟨2, 30, by decide⟩) (boot (fun _ => Bytes.zero _) 0 []) crashTwice = some s ∧
      s.boot = none ∧ s.committing = false := ⟨_, rfl, rfl, rfl⟩
  obtain ⟨s, hs, hb, hc⟩ := hrun
  obtain ⟨⟨ks, hks, hd⟩, -⟩ := reachable_crash_atomic (by decide) (.of_run hs)
  exact ⟨s, hs, hb, hc, ks, hks, (hd hb hc).2 60 (by decide)⟩

end Xv6.Log
