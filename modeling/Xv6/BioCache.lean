import Xv6.BioInv

/-!
# The buffer cache is coherent

Every step keeps the invariant, so in every run no block is cached twice, no buffer in use is
given to another block, the list stays whole, and `bread` returns the latest bytes of its block.
-/

namespace Xv6.Bio

open Function DList Tally

variable {ι : Type} {s s' s₁ : St ι} {d : Nat → Block} {b c : Fin NBUF} {p q : ι} {n : Nat}

/-! ### The list and the search for a buffer -/

theorem binitLinks_isList : ∃ l, binitLinks.IsList l ∧ l.Perm (List.finRange NBUF) := by
  -- the members linked so far are those the loop has passed
  have key : ∀ (todo l : List (Fin NBUF)) (t : Links (Fin NBUF)), t.IsList l → (todo ++ l).Nodup →
      ∃ l', (todo.foldl Links.pushFront t).IsList l' ∧ l'.Perm (todo ++ l) := by
    intro todo
    induction todo with
    | nil => exact fun l t h _ => ⟨l, h, .refl _⟩
    | cons b todo ih =>
      intro l t h hnd
      obtain ⟨hb, hnd⟩ := List.nodup_cons.1 hnd
      have hb' : b ∉ l := fun hm => hb (List.mem_append_right _ hm)
      obtain ⟨l', h1, h2⟩ := ih (b :: l) _ (h.pushFront hb')
        (List.perm_middle.nodup_iff.2 (List.nodup_cons.2 ⟨hb, hnd⟩))
      exact ⟨l', h1, h2.trans List.perm_middle⟩
  obtain ⟨l, h1, h2⟩ := key (List.finRange NBUF) [] ⟨fun _ => none, fun _ => none⟩
    ⟨List.nodup_nil, rfl, rfl⟩ (by simpa using List.nodup_finRange NBUF)
  exact ⟨l, h1, by simpa using h2⟩

def BgetOk (s : St ι) (dev blockno : Nat) : BgetResult → Prop
  | .loops => False
  | .panic => ∀ b, (s.buf b).refcnt ≠ 0 ∨ (s.buf b).dirty = true
  | .cached b => (s.buf b).dev = dev ∧ (s.buf b).blockno = blockno
  | .recycled b => ((s.buf b).refcnt = 0 ∧ (s.buf b).dirty = false) ∧
    ∀ c, (s.buf c).dev = dev → (s.buf c).blockno ≠ blockno

theorem bgetScan_ok (h : ∃ l, s.links.IsList l ∧ l.Perm (List.finRange NBUF)) (dev blockno : Nat) :
    BgetOk s dev blockno (bgetScan s dev blockno) := by
  obtain ⟨l, hl, hperm⟩ := h
  have hlen : l.length ≤ NBUF := by rw [hperm.length_eq, List.length_finRange]
  have hall : ∀ b, b ∈ l := fun b => hperm.mem_iff.2 (List.mem_finRange b)
  unfold bgetScan
  rw [scan_of_follow _ (hl.follow_next hlen), scan_of_follow _ (hl.follow_prev hlen)]
  rcases hf : l.find? fun b => (s.buf b).dev == dev && (s.buf b).blockno == blockno with _ | b
  · have hnone := List.find?_eq_none.1 hf
    rcases hr : l.reverse.find? fun b => (s.buf b).refcnt == 0 && !(s.buf b).dirty with _ | b
    · intro b
      have := List.find?_eq_none.1 hr b (by simpa using hall b)
      simp only [Bool.and_eq_true, beq_iff_eq, Bool.not_eq_true', not_and, Bool.not_eq_false] at this
      exact or_iff_not_imp_left.2 fun h => this (not_not.1 h)
    · refine ⟨by simpa using List.find?_some hr, fun c hc hn => ?_⟩
      exact hnone c (hall c) (by simp [hc, hn])
  · simpa [BgetOk] using List.find?_some hf

theorem relse_eq (s : St ι) (b : Fin NBUF) : relse s b =
    { s with
      buf := update s.buf b { s.buf b with refcnt := (s.buf b).refcnt - 1 }
      links := if (s.buf b).refcnt - 1 = 0 then (s.links.unlink b).pushFront b else s.links } := by
  simp only [relse, St.setBuf, update_self]
  split <;> rfl

/-! ### Steps -/

theorem holding_iff [DecidableEq ι] : holding s p b = true ↔ s.pc p = .idle ∧ (s.buf b).lock = some p := by
  simp [holding]

namespace Inv

variable [Fintype ι]

theorem disk_of_invalid (h : Inv d s) (hroot : (s.buf b).dev = ROOTDEV) (hv : (s.buf b).valid = false) :
    s.disk (s.buf b).blockno = latest d s.mods (s.buf b).blockno := by
  refine h.data.disk _ fun c h1 h2 h3 => ?_
  obtain rfl := h.data.uniq c b h1 hroot h2
  rw [hv] at h3
  cases h3

theorem holder (h : Inv d s) (hl : (s.buf b).lock = some p) (hf : ¬ (s.pc p).fills b) :
    (s.buf b).valid = true ∧ (s.buf b).dev = ROOTDEV ∧
      (s.buf b).data = latest d s.mods (s.buf b).blockno := by
  have hv := (h.data.lock b p hl).resolve_right hf
  exact ⟨hv, (h.data.buf b).value hv⟩

variable [DecidableEq ι]

theorem shift {v : Buf ι} {x : Pc} {t : Links (Fin NBUF)} (h : Inv d s) (hsame : (s.buf b).SameData v)
    (hlist : ∃ l, t.IsList l ∧ l.Perm (List.finRange NBUF))
    (hw : ∀ c, c ≠ b → x.waits c = (s.pc p).waits c)
    (hcount : v.refcnt + (s.buf b).held + (s.pc p).waits b = (s.buf b).refcnt + v.held + x.waits b)
    (hlock : ∀ q, q ≠ p → ((s.buf b).lock = some q ↔ v.lock = some q))
    (hx : PcOk (update s.buf b v) p x) (hfill : v.lock = some p → v.valid = true ∨ x.fills b)
    (hfills : ∀ c, c ≠ b → (s.pc p).fills c → x.fills c) (hun : s.unsaved b = true → v.lock.isSome = true) :
    Inv d { s with buf := update s.buf b v, pc := update s.pc p x, links := t } := by
  refine ⟨hlist, h.refs.move (p := p) (b := b) rfl (fun c hc => update_of_ne hc ..) hw ?_ ?_ hx,
    h.data.frame ?_ rfl rfl rfl ?_ ?_⟩
  · show (update s.buf b v b).refcnt + _ + _ = _ + (update s.buf b v b).held + _
    rw [update_self]; exact hcount
  · intro q hq
    refine (h.refs.ok q).frame (b := b) (fun c hc => update_of_ne hc ..) ?_ ?_ ?_ <;>
      simp only [update_self]
    · exact hsame.dev
    · exact hsame.blockno
    · exact fun hl => ⟨(hlock q hq).1 hl, hsame.valid, hsame.dirty⟩
  · intro c
    show (s.buf c).SameData (update s.buf b v c)
    rcases eq_or_ne c b with rfl | hc
    · rw [update_self]; exact hsame
    · rw [update_of_ne hc]; exact .refl _
  · intro c q hl
    change (update s.buf b v c).lock = some q at hl
    show (update s.buf b v c).valid = true ∨ (update s.pc p x q).fills c
    rcases eq_or_ne c b with rfl | hc
    · rw [update_self] at hl ⊢
      rcases eq_or_ne q p with rfl | hq
      · rw [update_self]; exact hfill hl
      · rw [update_of_ne hq, hsame.valid]
        exact h.data.lock c q ((hlock q hq).2 hl)
    · rw [update_of_ne hc] at hl ⊢
      refine (h.data.lock c q hl).imp_right fun hf => ?_
      rcases eq_or_ne q p with rfl | hq
      · rw [update_self]; exact hfills c hc hf
      · rwa [update_of_ne hq]
  · intro c hu
    show (update s.buf b v c).lock.isSome = true
    rcases eq_or_ne c b with rfl | hc
    · rw [update_self]; exact hun hu
    · rw [update_of_ne hc]; exact ((h.data.buf c).unsaved hu).2

theorem touch {v : Buf ι} {x : Pc} (h : Inv d s) (hheld : (s.buf b).lock = some p)
    (hbuf : s'.buf = update s.buf b v) (hpc : s'.pc = update s.pc p x) (hlinks : s'.links = s.links)
    (hdev : v.dev = (s.buf b).dev) (hno : v.blockno = (s.buf b).blockno) (hlock : v.lock = (s.buf b).lock)
    (hrefs : v.refcnt = (s.buf b).refcnt) (hvalid : v.valid = true) (hroot : (s.buf b).dev = ROOTDEV)
    (hw : ∀ c, x.waits c = (s.pc p).waits c) (hfills : ∀ c, c ≠ b → ¬ (s.pc p).fills c)
    (hx : PcOk s'.buf p x) (hu : ∀ c, c ≠ b → s'.unsaved c = s.unsaved c)
    (hm : ∀ m, m ≠ (s.buf b).blockno → latest d s'.mods m = latest d s.mods m)
    (hd : ∀ m, m ≠ (s.buf b).blockno → s'.disk m = s.disk m)
    (hdata : v.data = latest d s'.mods v.blockno)
    (hclean : v.dirty = false → s'.unsaved b = false →
      s'.disk (s.buf b).blockno = latest d s'.mods (s.buf b).blockno) : Inv d s' := by
  have hne : ∀ c, c ≠ b → s'.buf c = s.buf c := fun c hc => by rw [hbuf, update_of_ne hc]
  have hb : s'.buf b = v := by rw [hbuf, update_self]
  have hheld' : v.held = (s.buf b).held := by rw [Buf.held, hlock, Buf.held]
  refine ⟨hlinks ▸ h.list, h.refs.move hpc hne (fun c _ => hw c) ?_ ?_ hx,
    h.data.touch (fun c hc => ⟨hne c hc, hu c hc⟩) hroot (by rw [hb, hdev]) (by rw [hb, hno]) hm hd ?_
    ⟨fun _ => ⟨by rw [hb, hdev, hroot], by rw [hb, hdata]⟩, fun _ => by rw [hb, hvalid],
      fun _ => ⟨by rw [hb, hvalid], by rw [hb, hlock, hheld]; rfl⟩⟩ (by rw [hb, hvalid])
    (by rw [hb]; exact hclean)⟩
  · rw [hb, hheld', hrefs, hw b]
  · intro q hq
    refine (h.refs.ok q).frame hne (by rw [hb, hdev]) (by rw [hb, hno]) fun hl => ?_
    exact absurd (Option.some.inj (hheld.symm.trans hl)).symm hq
  · intro c q hl
    rcases eq_or_ne c b with rfl | hc
    · exact .inl (by rw [hb, hvalid])
    · rw [hne c hc] at hl ⊢
      refine (h.data.lock c q hl).imp_right fun hf => ?_
      rcases eq_or_ne q p with rfl | hq
      · exact absurd hf (hfills c hc)
      · rwa [hpc, update_of_ne hq]

theorem bget_cached (h : Inv d s) (hp : s.pc p = .idle)
    (hb : (s.buf b).dev = ROOTDEV ∧ (s.buf b).blockno = n) :
    Inv d ((s.setBuf b { s.buf b with refcnt := (s.buf b).refcnt + 1 }).setPc p (.getting b n)) := by
  refine h.shift (p := p) ⟨rfl, rfl, rfl, rfl, rfl⟩ h.list (fun c hc => ?_) ?_ (fun q _ => Iff.rfl)
    ?_ (fun hl => ?_) ?_ fun hu => ((h.data.buf b).unsaved hu).2
  · simp [Pc.waits, hp, hc.symm]
  · simp only [Buf.held, Pc.waits, hp, if_true]
    omega
  · simpa [PcOk] using hb
  · exact (h.data.lock b p hl).imp_right fun hf => by simp [Pc.fills, hp] at hf
  · simp [Pc.fills, hp]

theorem bget_recycled (h : Inv d s) (hp : s.pc p = .idle)
    (hb : (s.buf b).refcnt = 0 ∧ (s.buf b).dirty = false)
    (hnew : ∀ c, (s.buf c).dev = ROOTDEV → (s.buf c).blockno ≠ n) :
    Inv d ((s.setBuf b { s.buf b with
      dev := ROOTDEV, blockno := n, valid := false, dirty := false, refcnt := 1 }).setPc p (.getting b n)) := by
  obtain ⟨hl, hwait⟩ := h.refs.free hb.1
  have hun : s.unsaved b = false := by
    rcases hu : s.unsaved b with _ | _
    · rfl
    · have := ((h.data.buf b).unsaved hu).2
      rw [hl] at this
      cases this
  have hne : ∀ c v, c ≠ b → (update s.buf b v) c = s.buf c := fun c v hc => update_of_ne hc ..
  refine ⟨h.list, h.refs.move (p := p) rfl (fun c hc => hne c _ hc) (fun c hc => ?_) ?_ (fun q _ => ?_) ?_,
    h.data.reassign (n := n) (fun c hc => hne c _ hc) rfl rfl rfl (fun c q hf => ?_) hb.2 hun ?_ ?_ ?_ ?_ hnew⟩
  · simp [Pc.waits, hp, hc.symm]
  · simp [St.setPc, St.setBuf, Buf.held, hl, hp, Pc.waits, hb.1]
  · exact (h.refs.ok q).frame_of_free (fun c hc => hne c _ hc) (hwait q) (by simp [hl])
  · simp [PcOk, St.setPc, St.setBuf]
  · rcases eq_or_ne q p with rfl | hq
    · simp [Pc.fills, hp] at hf
    · simpa [St.setPc, St.setBuf, hq] using hf
  all_goals simp [St.setPc, St.setBuf, hl]

theorem bget (h : Inv d s) (hp : s.pc p = .idle) (hs : bget s ROOTDEV n = some (b, s₁)) :
    Inv d (s₁.setPc p (.getting b n)) := by
  have hscan := bgetScan_ok h.list ROOTDEV n
  unfold Bio.bget at hs
  split at hs
  · cases hs
  · cases hs
  · rename_i c hc
    rw [hc] at hscan
    cases hs
    exact h.bget_cached hp hscan
  · rename_i c hc
    rw [hc] at hscan
    cases hs
    exact h.bget_recycled hp hscan.1 hscan.2

theorem acquire (h : Inv d s) (hp : s.pc p = .getting b n) (hl : (s.buf b).lock = none) :
    Inv d ((s.setBuf b { s.buf b with lock := some p }).setPc p (.got b n)) := by
  have hok := h.refs.ok p
  rw [hp] at hok
  refine h.shift (p := p) ⟨rfl, rfl, rfl, rfl, rfl⟩ h.list (fun c hc => ?_) ?_ (fun q hq => ?_)
    ?_ (fun _ => .inr rfl) ?_ fun _ => rfl
  · simp [Pc.waits, hp, hc.symm]
  · simp [Buf.held, Pc.waits, hp, hl]
  · simp [hl, hq.symm]
  · simpa [PcOk] using hok
  · simp [Pc.fills, hp]

theorem setPc {x : Pc} (h : Inv d s) (b : Fin NBUF) (hw : ∀ c, x.waits c = (s.pc p).waits c)
    (hx : PcOk s.buf p x) (hfill : (s.buf b).lock = some p → (s.buf b).valid = true ∨ x.fills b)
    (hfills : ∀ c, c ≠ b → (s.pc p).fills c → x.fills c) : Inv d (s.setPc p x) := by
  have := h.shift (p := p) (b := b) (x := x) (.refl _) h.list (fun c _ => hw c)
    (by rw [hw b]) (fun q _ => Iff.rfl) (by rwa [update_eq_self]) hfill hfills
    fun hu => ((h.data.buf b).unsaved hu).2
  rwa [update_eq_self] at this

theorem got (h : Inv d s) (hp : s.pc p = .got b n) :
    Inv d (s.setPc p (if (s.buf b).valid then .idle else .reading b n)) := by
  have hok := h.refs.ok p
  rw [hp] at hok
  split
  · rename_i hv
    refine h.setPc b (fun c => ?_) trivial (fun _ => .inl hv) fun c hc hf => ?_
    · simp [Pc.waits, hp]
    · rw [hp] at hf; exact absurd hf.symm hc
  · rename_i hv
    refine h.setPc b (fun c => ?_) ⟨hok.1, hok.2, by simpa using hv⟩ (fun _ => .inr rfl) fun c hc hf => ?_
    · simp [Pc.waits, hp]
    · rw [hp] at hf; exact absurd hf.symm hc

theorem reading (h : Inv d s) (hp : s.pc p = .reading b n) : Inv d ((iderw s b).setPc p .idle) := by
  have hok := h.refs.ok p
  rw [hp] at hok
  obtain ⟨⟨hroot, rfl⟩, hl, hv⟩ := hok
  have hdirty := (h.data.buf b).clean_of_invalid hv
  have hdisk := h.disk_of_invalid hroot hv
  rw [iderw, if_neg (by rw [hdirty]; nofun)]
  exact h.touch hl rfl rfl rfl rfl rfl rfl rfl rfl hroot (fun c => by simp [Pc.waits, hp])
    (fun c hc hf => by rw [hp] at hf; exact hc hf.symm) trivial (fun _ _ => rfl) (fun _ _ => rfl)
    (fun _ _ => rfl) hdisk fun _ _ => hdisk

theorem writing (h : Inv d s) (hp : s.pc p = .writing b) :
    Inv d { (iderw s b).setPc p .idle with unsaved := update s.unsaved b false } := by
  have hok := h.refs.ok p
  rw [hp] at hok
  obtain ⟨hl, hdirty⟩ := hok
  obtain ⟨-, hroot, hdata⟩ := h.holder hl (by rw [hp]; exact id)
  rw [iderw, if_pos hdirty]
  refine h.touch hl rfl rfl rfl rfl rfl rfl rfl rfl hroot (fun c => by simp [Pc.waits, hp])
    (fun c _ hf => by rw [hp] at hf; exact hf) trivial (fun c hc => update_of_ne hc ..) (fun _ _ => rfl)
    (fun m hm => update_of_ne hm ..) hdata fun _ _ => ?_
  exact (update_self ..).trans hdata

omit [DecidableEq ι] in
theorem refcnt_pos (h : Inv d s) (hp : s.pc p = .releasing b) : 0 < (s.buf b).refcnt := by
  have := le_tally (Pc.waits b) s.pc p
  rw [hp] at this
  simp only [Pc.waits, if_true] at this
  have := h.refs.count b
  omega

theorem releasing (h : Inv d s) (hp : s.pc p = .releasing b) : Inv d ((relse s b).setPc p .idle) := by
  have hpos := h.refcnt_pos hp
  have key : ∀ t : Links (Fin NBUF), (∃ l, t.IsList l ∧ l.Perm (List.finRange NBUF)) →
      Inv d { s with
        buf := update s.buf b { s.buf b with refcnt := (s.buf b).refcnt - 1 }
        pc := update s.pc p .idle, links := t } := by
    intro t ht
    refine h.shift (p := p) ⟨rfl, rfl, rfl, rfl, rfl⟩ ht (fun c hc => ?_) ?_ (fun q _ => Iff.rfl) trivial
      (fun hl => ?_) ?_ fun hu => ((h.data.buf b).unsaved hu).2
    · simp [Pc.waits, hp, hc.symm]
    · simp only [Buf.held, Pc.waits, hp, if_true]
      omega
    · exact (h.data.lock b p hl).imp_right fun hf => by simp [Pc.fills, hp] at hf
    · simp [Pc.fills, hp]
  rw [relse_eq]
  refine key _ ?_
  split
  · obtain ⟨l, hl, hperm⟩ := h.list
    obtain ⟨l', hl', hperm'⟩ := hl.moveFront (hperm.mem_iff.2 (List.mem_finRange b))
    exact ⟨l', hl', hperm'.trans hperm⟩
  · exact h.list

theorem modify {v : Block} (h : Inv d s) (hp : s.pc p = .idle) (hl : (s.buf b).lock = some p) :
    Inv d { s.setBuf b { s.buf b with data := v } with
      unsaved := update s.unsaved b true, mods := ((s.buf b).blockno, v) :: s.mods } := by
  obtain ⟨hv, hroot, -⟩ := h.holder hl (by rw [hp]; exact id)
  refine h.touch (x := .idle) hl rfl ?_ rfl rfl rfl rfl rfl hv hroot (fun c => by simp [Pc.waits, hp])
    (fun c _ hf => by rw [hp] at hf; exact hf) trivial (fun c hc => update_of_ne hc ..) (fun m hm => ?_)
    (fun _ _ => rfl) ?_ fun _ hu => ?_
  · exact (update_eq_self_iff.2 hp.symm).symm
  · rw [latest_cons, update_of_ne hm]
  · rw [latest_cons, update_self]
  · simp at hu

theorem setDirty {x : Pc} {u : Fin NBUF → Bool} (h : Inv d s) (hp : s.pc p = .idle)
    (hl : (s.buf b).lock = some p) (hx : x = .idle ∨ x = .writing b) (hu : ∀ c, c ≠ b → u c = s.unsaved c) :
    Inv d { (s.setBuf b { s.buf b with dirty := true }).setPc p x with unsaved := u } := by
  obtain ⟨hv, hroot, hdata⟩ := h.holder hl (by rw [hp]; exact id)
  refine h.touch hl rfl rfl rfl rfl rfl rfl rfl hv hroot (fun c => ?_) (fun c _ hf => by rw [hp] at hf; exact hf)
    ?_ hu (fun _ _ => rfl) (fun _ _ => rfl) hdata fun hd => nomatch hd
  · rcases hx with rfl | rfl <;> simp [Pc.waits, hp]
  · rcases hx with rfl | rfl
    · trivial
    · simp [PcOk, St.setPc, St.setBuf, hl]

theorem release (h : Inv d s) (hp : s.pc p = .idle) (hl : (s.buf b).lock = some p) (hu : s.unsaved b = false) :
    Inv d ((s.setBuf b { s.buf b with lock := none }).setPc p (.releasing b)) := by
  refine h.shift (p := p) ⟨rfl, rfl, rfl, rfl, rfl⟩ h.list (fun c hc => ?_) ?_ (fun q hq => ?_) trivial
    nofun ?_ fun hu' => ?_
  · simp [Pc.waits, hp, hc.symm]
  · simp [Buf.held, Pc.waits, hp, hl]
  · simp [hl, hq.symm]
  · simp [Pc.fills, hp]
  · rw [hu] at hu'; cases hu'

theorem run {r : Option (Fin NBUF × Nat)} (h : Inv d s) (hs : run s p = some (r, s')) : Inv d s' := by
  unfold Bio.run at hs
  split at hs
  · cases hs
  · split at hs
    · cases hs
    · cases hs
      exact h.acquire ‹_› ‹_›
  · have hg := h.got ‹_›
    split at hs
    · cases hs
      rwa [if_pos ‹_›] at hg
    · cases hs
      rwa [if_neg ‹_›] at hg
  · cases hs; exact h.reading ‹_›
  · cases hs; exact h.writing ‹_›
  · cases hs; exact h.releasing ‹_›

theorem step {a : Act ι} (h : Inv d s) (hs : step s a = some s') : Inv d s' := by
  cases a with
  | bread p n =>
    obtain ⟨hp, hs⟩ := Option.ite_none_right_eq_some.1 hs
    obtain ⟨⟨b, s₁⟩, hget, rfl⟩ := Option.map_eq_some_iff.1 hs
    exact h.bget hp hget
  | modify p b v =>
    obtain ⟨hh, hs⟩ := Option.ite_none_right_eq_some.1 hs
    obtain ⟨hp, hl⟩ := holding_iff.1 hh
    cases hs
    exact h.modify hp hl
  | logWrite p b =>
    obtain ⟨hh, hs⟩ := Option.ite_none_right_eq_some.1 hs
    obtain ⟨hp, hl⟩ := holding_iff.1 hh
    cases hs
    have := h.setDirty (x := .idle) (u := update s.unsaved b false) hp hl (.inl rfl)
      fun c hc => update_of_ne hc ..
    rwa [St.setPc, show update (s.setBuf b { s.buf b with dirty := true }).pc p .idle = s.pc from
      update_eq_self_iff.2 hp.symm] at this
  | bwrite p b =>
    obtain ⟨hh, hs⟩ := Option.ite_none_right_eq_some.1 hs
    obtain ⟨hp, hl⟩ := holding_iff.1 hh
    cases hs
    exact h.setDirty (u := s.unsaved) hp hl (.inr rfl) fun _ _ => rfl
  | brelse p b =>
    obtain ⟨⟨hh, hu⟩, hs⟩ := Option.ite_none_right_eq_some.1 hs
    obtain ⟨hp, hl⟩ := holding_iff.1 hh
    cases hs
    exact h.release hp hl hu
  | run p =>
    obtain ⟨⟨r, s₁⟩, hrun, rfl⟩ := Option.map_eq_some_iff.1 hs
    exact h.run hrun

end Inv

/-! ### Identity of buffers -/

theorem setBuf_ident {v : Buf ι} (hdev : v.dev = (s.buf b).dev) (hno : v.blockno = (s.buf b).blockno)
    (c : Fin NBUF) :
    ((s.setBuf b v).buf c).dev = (s.buf c).dev ∧ ((s.setBuf b v).buf c).blockno = (s.buf c).blockno := by
  rcases eq_or_ne c b with rfl | hc
  · simp [St.setBuf, hdev, hno]
  · simp [St.setBuf, hc]

theorem iderw_ident (s : St ι) (b c : Fin NBUF) :
    ((iderw s b).buf c).dev = (s.buf c).dev ∧ ((iderw s b).buf c).blockno = (s.buf c).blockno := by
  by_cases hd : (s.buf b).dirty = true
  · rw [iderw, if_pos hd]; exact setBuf_ident (by rfl) (by rfl) c
  · rw [iderw, if_neg hd]; exact setBuf_ident (by rfl) (by rfl) c

theorem relse_ident (s : St ι) (b c : Fin NBUF) :
    ((relse s b).buf c).dev = (s.buf c).dev ∧ ((relse s b).buf c).blockno = (s.buf c).blockno := by
  rw [relse_eq]
  exact setBuf_ident (s := s) (v := { s.buf b with refcnt := (s.buf b).refcnt - 1 }) rfl rfl c

/-- Only `bget` gives a buffer to another block, and only one that is neither in use nor dirty. -/
theorem step_ident [DecidableEq ι] {a : Act ι} (hlist : ∃ l, s.links.IsList l ∧ l.Perm (List.finRange NBUF))
    (hs : step s a = some s') (hb : 0 < (s.buf c).refcnt ∨ (s.buf c).dirty = true) :
    (s'.buf c).dev = (s.buf c).dev ∧ (s'.buf c).blockno = (s.buf c).blockno := by
  cases a with
  | bread p n =>
    obtain ⟨hp, hs⟩ := Option.ite_none_right_eq_some.1 hs
    obtain ⟨⟨b, s₁⟩, hget, rfl⟩ := Option.map_eq_some_iff.1 hs
    have hscan := bgetScan_ok hlist ROOTDEV n
    unfold bget at hget
    split at hget
    · cases hget
    · cases hget
    · cases hget
      exact setBuf_ident (by rfl) (by rfl) c
    · rename_i b' hb'
      rw [hb'] at hscan
      cases hget
      obtain ⟨⟨h1, h2⟩, -⟩ := hscan
      have hcb : c ≠ b := by
        rintro rfl
        rw [h1, h2] at hb
        simp at hb
      simp [St.setPc, St.setBuf, hcb]
  | run p =>
    obtain ⟨⟨r, s₁⟩, hrun, rfl⟩ := Option.map_eq_some_iff.1 hs
    unfold run at hrun
    split at hrun
    · cases hrun
    · split at hrun
      · cases hrun
      · cases hrun; exact setBuf_ident (by rfl) (by rfl) c
    · split at hrun <;> cases hrun <;> exact ⟨rfl, rfl⟩
    · cases hrun; exact iderw_ident s _ c
    · cases hrun; exact iderw_ident s _ c
    · cases hrun; exact relse_ident s _ c
  | _ =>
    obtain ⟨-, hs⟩ := Option.ite_none_right_eq_some.1 hs
    cases hs
    exact setBuf_ident (by rfl) (by rfl) c

/-! ### Every run -/

variable [Fintype ι] [DecidableEq ι]

theorem reachable_inv (h : Machine.Reachable step (init d) s) : Inv d s := by
  refine h.inv (I := Inv d) ⟨binitLinks_isList, ⟨fun b => ?_, fun p => trivial⟩, ?_, fun b => ?_, nofun,
    fun n _ => rfl⟩ fun s a s' hi _ hs => hi.step hs
  · show 0 = 0 + tally (Pc.waits b) fun _ : ι => Pc.idle
    rw [tally_eq_zero (w := Pc.waits b) (f := fun _ : ι => Pc.idle) fun _ => rfl]
  · intro b c hb
    cases hb
  · exact ⟨nofun, nofun, nofun⟩

theorem bread_returns (h : Inv d s) (hs : run s p = some (some (b, n), s')) :
    (s'.buf b).dev = ROOTDEV ∧ (s'.buf b).blockno = n ∧ (s'.buf b).lock = some p ∧
      (s'.buf b).data = latest d s'.mods n := by
  have hok := h.refs.ok p
  unfold Bio.run at hs
  split at hs
  · cases hs
  · split at hs <;> cases hs
  · rename_i b' n' hp
    split at hs
    · rename_i hv
      cases hs
      rw [hp] at hok
      obtain ⟨⟨h1, rfl⟩, h3⟩ := hok
      exact ⟨h1, rfl, h3, ((h.data.buf b).value hv).2⟩
    · cases hs
  · rename_i b' n' hp
    cases hs
    rw [hp] at hok
    obtain ⟨⟨h1, rfl⟩, h3, hv⟩ := hok
    have hd := h.disk_of_invalid h1 hv
    simp [iderw, (h.data.buf b).clean_of_invalid hv, St.setPc, St.setBuf, h1, h3, hd]
  · cases hs
  · cases hs

/-- Coherence of the buffer cache, in every state of every run: no block of the root device is in
two buffers, a step changes the block of no buffer that is in use or dirty, both directions of the
list visit every buffer once (so no search of `bget` runs forever), and a `bread` that returns
gives the locked buffer of its block with the bytes of the block's latest modification. -/
theorem reachable_coherent (h : Machine.Reachable step (init d) s) :
    (∀ b c, (s.buf b).dev = ROOTDEV → (s.buf c).dev = ROOTDEV →
      (s.buf b).blockno = (s.buf c).blockno → b = c) ∧
    (∀ a s' b, step s a = some s' → 0 < (s.buf b).refcnt ∨ (s.buf b).dirty = true →
      (s'.buf b).dev = (s.buf b).dev ∧ (s'.buf b).blockno = (s.buf b).blockno) ∧
    (∃ l : List (Fin NBUF), l.Perm (List.finRange NBUF) ∧
      follow s.links.next NBUF (s.links.next none) = some l ∧
      follow s.links.prev NBUF (s.links.prev none) = some l.reverse) ∧
    ∀ p b n s', run s p = some (some (b, n), s') →
      (s'.buf b).dev = ROOTDEV ∧ (s'.buf b).blockno = n ∧ (s'.buf b).lock = some p ∧
        (s'.buf b).data = latest d s'.mods n := by
  have hi := reachable_inv h
  refine ⟨hi.data.uniq, fun a s' b hs hb => step_ident hi.list hs hb, ?_,
    fun p b n s' hs => bread_returns hi hs⟩
  obtain ⟨l, hl, hperm⟩ := hi.list
  have hlen : l.length ≤ NBUF := by rw [hperm.length_eq, List.length_finRange]
  exact ⟨l, hperm, hl.follow_next hlen, hl.follow_prev hlen⟩

/-- A buffer has a reference for its holder and for each process that is in `acquiresleep` of `bget` or in `brelse` for
it, and no other; so the panic "bget: no buffers" means that every buffer is dirty or that somebody uses it. -/
theorem reachable_references (h : Machine.Reachable step (init d) s) :
    (∀ b, (s.buf b).refcnt = (s.buf b).held + tally (Pc.waits b) s.pc) ∧
    ∀ p n, s.pc p = .idle → step s (.bread p n) = none →
      ∀ b, (s.buf b).dirty = true ∨ (s.buf b).lock ≠ none ∨ ∃ q, (s.pc q).waits b ≠ 0 := by
  have hi := reachable_inv h
  refine ⟨hi.refs.count, fun p n hp hnone b => ?_⟩
  have hok := bgetScan_ok hi.list ROOTDEV n
  have hpanic : bgetScan s ROOTDEV n = .panic := by
    rw [step, if_pos hp, Option.map_eq_none_iff, bget] at hnone
    split at hnone
    · rename_i hloops
      rw [hloops] at hok
      exact hok.elim
    · assumption
    · cases hnone
    · cases hnone
  rw [hpanic] at hok
  refine (hok b).symm.imp_right fun hne => ?_
  by_contra hfree
  rw [not_or, not_not, not_exists] at hfree
  have hwaits : tally (Pc.waits b) s.pc = 0 := tally_eq_zero fun q => not_not.1 (hfree.2 q)
  rw [hi.refs.count b, hwaits, Buf.held, hfree.1] at hne
  exact hne rfl

/-- Process 0 reads block 5 from the disk, changes it and logs the change; process 1 is about to
return from its own `bread` of the block. -/
def readModifyRead : List (Act (Fin 2)) :=
  [.bread 0 5, .run 0, .run 0, .run 0, .modify 0 0 (fun _ => 7), .bread 1 5, .logWrite 0 0,
    .brelse 0 0, .run 0, .run 1]

theorem reachable_coherent_readModifyRead :
    ∃ s s', Machine.run step (init fun _ => Bytes.zero _) readModifyRead = some s ∧
      run s 1 = some (some (0, 5), s') ∧ (s'.buf 0).data = latest (fun _ => Bytes.zero _) s'.mods 5 := by
  have hrun : ∃ s s', Machine.run step (init fun _ => Bytes.zero _) readModifyRead = some s ∧
      run s 1 = some (some (0, 5), s') := ⟨_, _, rfl, rfl⟩
  obtain ⟨s, s', hs, hr⟩ := hrun
  have h := reachable_coherent (.of_run hs)
  exact ⟨s, s', hs, hr, (h.2.2.2 1 0 5 s' hr).2.2.2⟩

theorem reachable_references_readModifyRead : ∃ s, Machine.run step (init fun _ => Bytes.zero _) readModifyRead = some s ∧
    (s.buf 0).refcnt = 1 ∧ (s.buf 0).refcnt = (s.buf 0).held + tally (Pc.waits 0) s.pc := by
  have hrun : ∃ s, Machine.run step (init fun _ => Bytes.zero _) readModifyRead = some s ∧ (s.buf 0).refcnt = 1 :=
    ⟨_, rfl, rfl⟩
  obtain ⟨s, hs, href⟩ := hrun
  exact ⟨s, hs, href, (reachable_references (.of_run hs)).1 0⟩

end Xv6.Bio
