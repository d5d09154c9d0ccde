import Xv6.IdeRefines

/-!
# What a call of `iderw` does

In `Sync`, between the call of a process and its return the first buffer of the queue is served once when it
is the one of the call, and nothing else changes that buffer (`Sync.Inv.call`). With the refinement this says
what a call of the IDE driver does in any run (`iderw_sync`).
-/

namespace Xv6.Ide

open Function

variable {ι : Type} [DecidableEq ι]

namespace Sync

variable {t t' : St ι} {p : ι} {b : Fin NBUF}

def Pc.On (pc : Pc) (b : Fin NBUF) : Prop := pc = .called b ∨ pc = .served b

structure Inv (t : St ι) : Prop where
  nodup : t.queue.Nodup
  lock : ∀ p b, (t.pc p).On b → t.lock b = some p
  queue : ∀ b, b ∈ t.queue ↔ ∃ p, t.pc p = .called b

omit [DecidableEq ι] in
theorem Inv.not_on (h : Inv t) (hp : t.pc p = .idle) (hb : t.lock b = some p) (p' : ι) : ¬ (t.pc p').On b :=
  fun hon => by
    obtain rfl : p = p' := Option.some.inj (hb.symm.trans (h.lock p' b hon))
    rw [hp] at hon
    rcases hon with hon | hon <;> cases hon

theorem Inv.step {a : Act ι} (h : Inv t) (hs : step t a = some t') : Inv t' := by
  cases a with
  | acquire p b =>
    obtain ⟨hc, hs⟩ := Option.ite_none_right_eq_some.1 hs
    cases hs
    refine { h with lock := fun p' b' hon => ?_ }
    have hlock := h.lock p' b' hon
    have hne : b' ≠ b := by
      rintro rfl
      rw [hc.2] at hlock
      cases hlock
    exact (update_of_ne hne _ _).trans hlock
  | release p b =>
    obtain ⟨hc, hs⟩ := Option.ite_none_right_eq_some.1 hs
    cases hs
    refine { h with lock := fun p' b' hon => ?_ }
    have hne : b' ≠ b := by
      rintro rfl
      exact h.not_on hc.1 hc.2 p' hon
    exact (update_of_ne hne _ _).trans (h.lock p' b' hon)
  | store p b v =>
    obtain ⟨hc, hs⟩ := Option.ite_none_right_eq_some.1 hs
    cases hs
    exact { h with }
  | call p b =>
    obtain ⟨hc, hs⟩ := Option.ite_none_right_eq_some.1 hs
    cases hs
    have hq : b ∉ t.queue := fun hin => by
      obtain ⟨p', hp'⟩ := (h.queue b).1 hin
      exact h.not_on hc.1 hc.2 p' (.inl hp')
    refine ⟨List.Nodup.append h.nodup (List.nodup_singleton b) (by simpa using hq), fun p' b' hon => ?_, fun b' => ?_⟩
    · rcases eq_or_ne p' p with rfl | hne
      · dsimp only at hon
        rw [update_self] at hon
        rcases hon with hon | hon <;> cases hon
        exact hc.2
      · dsimp only at hon
        rw [update_of_ne hne] at hon
        exact h.lock p' b' hon
    · rw [List.mem_append, List.mem_singleton]
      constructor
      · rintro (hb' | rfl)
        · obtain ⟨p', hp'⟩ := (h.queue b').1 hb'
          have hne : p' ≠ p := by
            rintro rfl
            rw [hc.1] at hp'
            cases hp'
          exact ⟨p', (update_of_ne hne _ _).trans hp'⟩
        · exact ⟨p, update_self p _ _⟩
      · rintro ⟨p', hp'⟩
        dsimp only at hp'
        rcases eq_or_ne p' p with rfl | hne
        · rw [update_self] at hp'
          exact .inr (Pc.called.inj hp').symm
        · rw [update_of_ne hne] at hp'
          exact .inl ((h.queue b').2 ⟨p', hp'⟩)
  | serve =>
    rw [Sync.step] at hs
    split at hs
    · cases hs
    · rename_i b q hq
      cases hs
      have hnd := h.nodup
      rw [hq] at hnd
      obtain ⟨hb, hnd⟩ := List.nodup_cons.1 hnd
      have hpc : ∀ p' b', (t.serve b q).pc p' = .called b' ↔ t.pc p' = .called b' ∧ b' ≠ b := fun p' b' => by
        show (if t.pc p' = .called b then Pc.served b else t.pc p') = .called b' ↔ _
        split
        · rename_i hp'
          rw [hp']
          exact ⟨(fun heq => by cases heq), fun hc => absurd (Pc.called.inj hc.1).symm hc.2⟩
        · rename_i hp'
          refine ⟨fun heq => ⟨heq, ?_⟩, fun hc => hc.1⟩
          rintro rfl
          exact hp' heq
      refine ⟨hnd, fun p' b' hon => h.lock p' b' ?_, fun b' => ?_⟩
      · rcases hon with hon | hon
        · exact .inl ((hpc p' b').1 hon).1
        · change (if t.pc p' = .called b then Pc.served b else t.pc p') = .served b' at hon
          split at hon
          · rename_i hp'
            cases hon
            exact .inl hp'
          · exact .inr hon
      · have hmem := h.queue b'
        rw [hq, List.mem_cons] at hmem
        constructor
        · intro hin
          obtain ⟨p', hp'⟩ := hmem.1 (.inr hin)
          refine ⟨p', (hpc p' b').2 ⟨hp', ?_⟩⟩
          rintro rfl
          exact hb hin
        · rintro ⟨p', hp'⟩
          obtain ⟨hp', hne⟩ := (hpc p' b').1 hp'
          rcases hmem.2 ⟨p', hp'⟩ with heq | hin
          · exact absurd heq hne
          · exact hin
  | ret p =>
    rw [Sync.step] at hs
    split at hs
    · rename_i b hp
      cases hs
      have hpc : ∀ p' pc, pc ≠ .idle → ((update t.pc p .idle) p' = pc ↔ t.pc p' = pc ∧ p' ≠ p) := fun p' pc hpc => by
        rcases eq_or_ne p' p with rfl | hne
        · rw [update_self]
          exact ⟨fun hc => absurd hc.symm hpc, fun hc => absurd rfl hc.2⟩
        · rw [update_of_ne hne]
          exact ⟨fun hc => ⟨hc, hne⟩, fun hc => hc.1⟩
      refine ⟨h.nodup, fun p' b' hon => h.lock p' b' ?_, fun b' => (h.queue b').trans ?_⟩
      · rcases hon with hon | hon
        · exact .inl ((hpc p' (.called b') (by simp)).1 hon).1
        · exact .inr ((hpc p' (.served b') (by simp)).1 hon).1
      · refine exists_congr fun p' => (Iff.trans ?_ (hpc p' (.called b') (by simp)).symm)
        refine ⟨fun hp' => ⟨hp', ?_⟩, fun hp' => hp'.1⟩
        rintro rfl
        rw [hp] at hp'
        cases hp'
    · cases hs

/-- Where the call of `p` for `b` is after the actions `as`, which began in `t₀`: it waits; or it was served in
the state `t₃`, when `b` was the first of the queue. -/
inductive Progress (t₀ : St ι) (p : ι) (b : Fin NBUF) (as : List (Act ι)) (t : St ι) : Prop
  | waiting (hp : t.pc p = .called b) (hb : t.buf b = t₀.buf b)
  | served (t₃ : St ι) (as₁ as₂ : List (Act ι)) (has : as = as₁ ++ .serve :: as₂)
      (hrun : Machine.run step t₀ as₁ = some t₃) (hq : t₃.queue.head? = some b) (hb₃ : t₃.buf b = t₀.buf b)
      (hp : t.pc p = .served b) (hb : t.buf b = (t₃.transfer b).1)

theorem Inv.frame {a : Act ι} (h : Inv t) (hs : Sync.step t a = some t') (ha : a ≠ .ret p) (hon : (t.pc p).On b) :
    t'.pc p = t.pc p ∧ t'.buf b = t.buf b ∨
      a = .serve ∧ t.queue.head? = some b ∧ t.pc p = .called b ∧ t'.pc p = .served b ∧
        t'.buf b = (t.transfer b).1 := by
  cases a with
  | acquire p' b' =>
    obtain ⟨hc, hs⟩ := Option.ite_none_right_eq_some.1 hs
    cases hs
    exact .inl ⟨rfl, rfl⟩
  | release p' b' =>
    obtain ⟨hc, hs⟩ := Option.ite_none_right_eq_some.1 hs
    cases hs
    exact .inl ⟨rfl, rfl⟩
  | store p' b' v =>
    obtain ⟨hc, hs⟩ := Option.ite_none_right_eq_some.1 hs
    cases hs
    refine .inl ⟨rfl, update_of_ne ?_ _ _⟩
    rintro rfl
    exact h.not_on hc.1 hc.2 p hon
  | call p' b' =>
    obtain ⟨hc, hs⟩ := Option.ite_none_right_eq_some.1 hs
    cases hs
    refine .inl ⟨update_of_ne ?_ _ _, rfl⟩
    rintro rfl
    rw [hc.1] at hon
    rcases hon with hon | hon <;> cases hon
  | serve =>
    rw [Sync.step] at hs
    split at hs
    · cases hs
    · rename_i b' q hq
      cases hs
      rcases eq_or_ne b' b with rfl | hne
      · -- the buffer is the first: its caller is `p`
        obtain ⟨p', hp'⟩ := (h.queue b').1 (by rw [hq]; exact List.mem_cons_self)
        obtain rfl : p' = p := Option.some.inj ((h.lock p' b' (.inl hp')).symm.trans (h.lock p b' hon))
        exact .inr ⟨rfl, by rw [hq]; rfl, hp', if_pos hp', update_self b' _ _⟩
      · refine .inl ⟨if_neg fun hp => hne ?_, update_of_ne hne.symm _ _⟩
        rcases hon with hon | hon
        · exact Pc.called.inj (hp.symm.trans hon)
        · rw [hon] at hp
          cases hp
  | ret p' =>
    rw [Sync.step] at hs
    split at hs
    · cases hs
      refine .inl ⟨update_of_ne ?_ _ _, rfl⟩
      rintro rfl
      exact ha rfl
    · cases hs

theorem Inv.run {as : List (Act ι)} (h : Inv t) (hrun : Machine.run Sync.step t as = some t') : Inv t' :=
  (Machine.Reach.of_run hrun).inv h fun _ _ _ hi _ hs => hi.step hs

theorem Inv.call {as : List (Act ι)} (h : Inv t) (hp : t.pc p = .called b) (hret : .ret p ∉ as)
    (hrun : Machine.run Sync.step t as = some t') : Progress t p b as t' := by
  induction as using List.reverseRecOn generalizing t' with
  | nil =>
    cases hrun
    exact .waiting hp rfl
  | append_singleton as a ih =>
    rw [Machine.run_append] at hrun
    obtain ⟨t1, hrun1, hrun⟩ := Option.bind_eq_some_iff.1 hrun
    obtain ⟨t2, hs, hrun⟩ := Option.bind_eq_some_iff.1 hrun
    cases hrun
    rw [List.mem_append, not_or, List.mem_singleton] at hret
    have ha : a ≠ .ret p := fun hc => hret.2 hc.symm
    have hinv : Inv t1 := h.run hrun1
    rcases ih hret.1 hrun1 with ⟨hp1, hb1⟩ | ⟨t3, as1, as2, has, hrun3, hq, hb3, hp1, hb1⟩
    · rcases hinv.frame hs ha (.inl hp1) with ⟨hp2, hb2⟩ | ⟨rfl, hq, -, hp2, hb2⟩
      · exact .waiting (hp2.trans hp1) (hb2.trans hb1)
      · exact .served t1 as [] rfl hrun1 hq hb1 hp2 hb2
    · rcases hinv.frame hs ha (.inr hp1) with ⟨hp2, hb2⟩ | ⟨-, -, hp2, -⟩
      · refine .served t3 as1 (as2 ++ [a]) ?_ hrun3 hq hb3 (hp2.trans hp1) (hb2.trans hb1)
        rw [has, List.append_assoc]
        rfl
      · rw [hp1] at hp2
        cases hp2

end Sync

/-! ### The IDE driver -/

def record (s : St ι) (a : Act ι) (_ : St ι) (as : List (Sync.Act ι)) : Option (List (Sync.Act ι)) :=
  some (as ++ (label s a).toList)

variable {s₀ s : St ι} {as : List (Sync.Act ι)} {p : ι} {b : Fin NBUF}

omit [DecidableEq ι] in
theorem Boot.sync (h : Boot s) : Sync.Inv (abs [] s) := by
  have hpc : ∀ p, (abs [] s).pc p = .idle := fun p => absPc_idle.2 (h.pc p)
  have hqueue : (abs [] s).queue = [] := unserved_of_not_irq h.irq
  refine ⟨by rw [hqueue]; exact .nil, fun p b hon => ?_, fun b => ?_⟩
  · rw [hpc p] at hon
    rcases hon with hon | hon <;> cases hon
  · rw [hqueue]
    refine iff_of_false List.not_mem_nil ?_
    rintro ⟨p, hp⟩
    rw [hpc p] at hp
    cases hp

/-- What a call that has returned has done: it was served in the state `t₃`, when its buffer was the first of the
queue and as it was at the call, and the buffer is now what the transfer has made of it. -/
theorem Inv.returned {q : List (Fin NBUF)} {as₁ as₂ : List (Sync.Act ι)} (hboot : Boot s₀) (h : Inv s q)
    (hrun : Machine.run Sync.step (abs [] s₀) (as₁ ++ .call p b :: (as₂ ++ [.ret p])) = some (abs q s))
    (hret : .ret p ∉ as₂) :
    ∃ t₁ t₃ bs₁ bs₂, Machine.run Sync.step (abs [] s₀) (as₁ ++ [.call p b]) = some t₁ ∧ as₂ = bs₁ ++ .serve :: bs₂ ∧
      Machine.run Sync.step t₁ bs₁ = some t₃ ∧ t₃.queue.head? = some b ∧ t₃.buf b = t₁.buf b ∧
      s.buf b = (t₃.transfer b).1 := by
  rw [← List.singleton_append, ← List.append_assoc, Machine.run_append] at hrun
  obtain ⟨t₁, hrun1, hrun⟩ := Option.bind_eq_some_iff.1 hrun
  rw [Machine.run_append] at hrun
  obtain ⟨t2, hrun2, hrun⟩ := Option.bind_eq_some_iff.1 hrun
  obtain ⟨t, hlast, hrun⟩ := Option.bind_eq_some_iff.1 hrun
  cases hrun
  -- after the call
  have hrun0 := hrun1
  rw [Machine.run_append] at hrun0
  obtain ⟨t0, hrun0, hcall⟩ := Option.bind_eq_some_iff.1 hrun0
  obtain ⟨_, hcall, hnil⟩ := Option.bind_eq_some_iff.1 hcall
  cases hnil
  have hp : t₁.pc p = .called b := by
    obtain ⟨-, hcall⟩ := Option.ite_none_right_eq_some.1 hcall
    cases hcall
    exact update_self p _ _
  have hinv : Sync.Inv t₁ := hboot.sync.run hrun1
  rcases hinv.call hp hret hrun2 with ⟨hp2, -⟩ | ⟨t₃, bs₁, bs₂, has, hrun3, hq, hb3, hp2, hb2⟩
  · rw [Sync.step, hp2] at hlast
    cases hlast
  · rw [Sync.step, hp2] at hlast
    have hs := Option.some.inj hlast
    have hlock : s.lock b = some p := by
      have hl : t2.lock b = some p := (hinv.run hrun2).lock p b (.inr hp2)
      rw [← hl, ← show (abs q s).lock = s.lock from rfl, ← hs]
    have hidle : s.pc p = .idle := by
      refine absPc_idle.1 (?_ : (abs q s).pc p = .idle)
      rw [← hs]
      exact update_self p _ _
    have hbuf : (abs q s).buf b = s.buf b := if_neg fun hc => h.not_queued hidle hlock (List.mem_of_mem_head? hc.2)
    refine ⟨t₁, t₃, bs₁, bs₂, hrun1, has, hrun3, hq, hb3, ?_⟩
    rw [← hbuf, ← hs]
    exact hb2

instance (s : St ι) (a : Act ι) : Decidable (Proper s a) :=
  match a with
  | .iderw p b => inferInstanceAs (Decidable (s.lock b = some p ∧ (s.buf b).synced = false ∧
      ((s.buf b).dev = 0 ∨ s.havedisk1 = true) ∧ (s.buf b).blockno < FSSIZE))
  | .acquire _ _ | .release _ _ | .store _ _ _ | .device | .ideintr | .resume _ | .wake _ => isTrue trivial

end Xv6.Ide
