import Xv6.UmallocInv
import Xv6.Lib.Run

/-!
# Runs of `malloc` and `free`

`malloc` goes around the list once and, if no block is large enough, once more after `morecore`. What it
hands out is a block of exactly the units it computes (`malloc_run`). `heap_wellFormed` puts the calls
together: whatever a program allocates and frees, the free list and the blocks are as they should be.
-/

namespace Xv6.Umalloc

open Exec Function
open Vm (sub32)

variable {base : Nat} {F A S : Finset Nat} {s s' : St} {b c p q n : Nat} {sbrk : Nat → M (Option Nat)}

/-! ### Taking a block -/

theorem St.setHdr_comm {h h' : Header} (hne : b ≠ c) : (s.setHdr b h).setHdr c h' = (s.setHdr c h').setHdr b h := by
  rw [setHdr, setHdr, setHdr, setHdr]
  dsimp only
  rw [update_comm hne]

/-- The header of a place that no block begins at does not matter. -/
theorem Blocks.setHdr_free {h : Header} (hs : Blocks base F A s) (hF : b ∉ insert base F) (hA : b ∉ A) :
    Blocks base F A (s.setHdr b h) := by
  have hother : ∀ c, c ∈ F ∨ c ∈ A → (s.setHdr b h).size c = s.size c := fun c hc =>
    St.setHdr_size_of_ne fun heq => hc.elim (fun hc => hF (heq ▸ Finset.mem_insert_of_mem hc)) fun hc => hA (heq ▸ hc)
  refine hs.setHdr (fun heq => absurd (heq ▸ Finset.mem_insert_self _ _) hF) ?_ ?_ fun x => ?_
  · intro c hc
    rw [hother c hc]
    exact hs.pos c hc
  · intro c hc d hd
    rw [hother c (.inl hc)]
    exact hs.merged c hc d hd
  · rw [St.weight_congr fun c hc => hother c (.inl hc), St.weight_congr fun c hc => hother c (.inr hc)]

theorem Heap.takeAll (hs : Heap base F A s) (hq : q ∈ insert base F) (hp : (s.hdr q).ptr = p) (hpF : p ∈ F)
    (hlt : q < p) : Heap base (F.erase p) (insert p A) { s.setHdr q ⟨(s.hdr p).ptr, s.size q⟩ with freep := q } := by
  have hsize := St.setHdr_size_link (s := s) (b := q) (s.hdr p).ptr
  have hpA : p ∉ A := hs.not_mem_used hpF
  have hbl : Blocks base (F.erase p) (insert p A) (s.setHdr q ⟨(s.hdr p).ptr, s.size q⟩) := by
    refine hs.toBlocks.setHdr (fun heq => ?_) ?_ ?_ fun x => ?_
    · subst heq
      exact hs.base_size
    · rintro c (hc | hc)
      · rw [hsize]
        exact hs.pos c (.inl (Finset.mem_of_mem_erase hc))
      · rw [hsize]
        rcases Finset.mem_insert.1 hc with rfl | hc
        · exact hs.pos c (.inl hpF)
        · exact hs.pos c (.inr hc)
    · intro c hc d hd
      rw [hsize]
      exact hs.merged c (Finset.mem_of_mem_erase hc) d (Finset.mem_of_mem_erase hd)
    · have h1 := St.weight_insert (s := s) hpA x
      have h2 := St.weight_erase (s := s) hpF x
      rw [St.weight_congr fun c _ => hsize c, St.weight_congr fun c _ => hsize c]
      omega
  have hring := hs.ring.erase hq hp hlt
  rw [Finset.erase_insert_of_ne (hs.base_lt (.inl hpF)).ne, ← St.setHdr_ptr (h := ⟨(s.hdr p).ptr, s.size q⟩)] at hring
  refine ⟨hbl.withFreep q, hring, ?_⟩
  exact Finset.mem_insert.2 ((Finset.mem_insert.1 hq).imp_right fun hF => Finset.mem_erase.2 ⟨hlt.ne, hF⟩)

theorem Heap.takeTail {m : Nat} (hs : Heap base F A s) (hq : q ∈ insert base F) (hpF : p ∈ F) (hm : 0 < m) (hn : 0 < n)
    (hsize : s.size p = m + n) : p + 8 * m ∉ insert base F ∧ p + 8 * m ∉ A ∧
      Heap base F (insert (p + 8 * m) A) { (s.setHdr p ⟨(s.hdr p).ptr, m⟩).setHdr (p + 8 * m)
        ⟨((s.setHdr p ⟨(s.hdr p).ptr, m⟩).hdr (p + 8 * m)).ptr, n⟩ with freep := q } := by
  have hblock : ∀ c, c ∈ F ∨ c ∈ A → c ≠ p + 8 * m := fun c hc heq => by
    have := hs.disjoint (.inl hpF) hc (by omega)
    omega
  have hbase := hs.base_lt (.inl hpF)
  have htF : p + 8 * m ∉ insert base F := fun hmem => by
    rcases Finset.mem_insert.1 hmem with heq | hF
    · omega
    · exact hblock _ (.inl hF) rfl
  have htA : p + 8 * m ∉ A := fun hA => hblock _ (.inr hA) rfl
  have hpA : p ∉ A := hs.not_mem_used hpF
  refine ⟨htF, htA, ?_⟩
  generalize ((s.setHdr p ⟨(s.hdr p).ptr, m⟩).hdr (p + 8 * m)).ptr = v
  rw [St.setHdr_comm (by omega)]
  have hfree := hs.toBlocks.setHdr_free (h := ⟨v, n⟩) htF htA
  have hsize' : (s.setHdr (p + 8 * m) ⟨v, n⟩).size p = m + n := by rw [St.setHdr_size_of_ne (by omega), hsize]
  generalize hs1 : s.setHdr (p + 8 * m) ⟨v, n⟩ = s1 at hfree hsize'
  have ht : s1.size (p + 8 * m) = n := by rw [← hs1, St.setHdr_size_self]
  have hptr : ∀ c ∈ insert base F, (s1.hdr c).ptr = (s.hdr c).ptr := fun c hc => by
    have hne : c ≠ p + 8 * m := fun heq => htF (heq ▸ hc)
    rw [← hs1, St.setHdr_hdr, update_of_ne hne]
  have hbl : Blocks base F (insert (p + 8 * m) A) (s1.setHdr p ⟨(s.hdr p).ptr, m⟩) := by
    refine hfree.setHdr (fun heq => absurd heq hbase.ne') ?_ ?_ fun x => ?_
    · intro c hc
      by_cases hcp : c = p
      · rw [hcp, St.setHdr_size_self]
        exact hm
      · rw [St.setHdr_size_of_ne hcp]
        rcases hc with hc | hc
        · exact hfree.pos c (.inl hc)
        · rcases Finset.mem_insert.1 hc with rfl | hc
          · rw [ht]
            exact hn
          · exact hfree.pos c (.inr hc)
    · intro c hc d hd
      by_cases hcp : c = p
      · subst hcp
        rw [St.setHdr_size_self]
        exact fun heq => hblock d (.inl hd) heq.symm
      · rw [St.setHdr_size_of_ne hcp]
        exact hfree.merged c hc d hd
    · have h1 := St.weight_setHdr (s := s1) (h := ⟨(s.hdr p).ptr, m⟩) hpF x
      have h2 := St.weight_insert (s := s1) htA x
      have h3 := cov_add x p m n
      rw [St.weight_setHdr_of_notMem (S := insert (p + 8 * m) A) fun hA => ?_]
      · rw [hsize'] at h1
        rw [ht] at h2
        dsimp only at h1
        omega
      · rcases Finset.mem_insert.1 hA with heq | hA
        · omega
        · exact hpA hA
  refine ⟨hbl.withFreep q, ?_, hq⟩
  show SortedRing base (insert base F) fun c => ((s1.setHdr p ⟨(s.hdr p).ptr, m⟩).hdr c).ptr
  rw [St.setHdr_ptr]
  refine hs.ring.congr fun c hc => ?_
  by_cases hcp : c = p
  · rw [hcp, update_self]
  · rw [update_of_ne hcp, hptr c hc]

theorem take_run (hs : Heap base F A s) (hq : q ∈ insert base F) (hp : (s.hdr q).ptr = p) (hn : 0 < n)
    (hle : n ≤ s.size p) : ∃ F' t s', take n q p (s.hdr p) s = (.ok (t + 8), s') ∧ t ∉ A ∧ base < t ∧
      Heap base F' (insert t A) s' ∧ Frame A s s' ∧ s'.size t = n := by
  have hpR : p ∈ insert base F := hp ▸ hs.ring.next_mem hq
  have hpb : p ≠ base := fun heq => by
    rw [heq, hs.base_size] at hle
    omega
  have hpF : p ∈ F := Finset.mem_of_mem_insert_of_ne hpR hpb
  have hlt : q < p := by
    by_contra hge
    exact hpb (hp ▸ (hs.ring.next_eq_base hq (by rw [hp]; exact hge)).1)
  have hbd := hs.bounds (.inl hpF)
  have hroom := hs.room
  have hbase := hs.base_lt (.inl hpF)
  have hqA : q ∉ A := fun hA => hs.not_mem_insert hA hq
  have hpA : p ∉ A := hs.not_mem_used hpF
  unfold take
  split
  · rename_i heq
    have heq : s.size p = n := heq
    have hend : plus p 1 = p + 8 := plus_eq (by omega)
    refine ⟨F.erase p, p, _, ?_, hpA, hbase, hs.takeAll hq hp hpF hlt, ?_, ?_⟩
    · rw [bind_of_ok (setPtr_run (hs.access (.inl hq))), hend]
      rfl
    · exact (Frame.setHdr hqA).trans ⟨rfl, rfl, rfl, rfl, fun _ _ => rfl⟩
    · exact (St.setHdr_size_link _ _).trans heq
  · rename_i hne
    have hne : s.size p ≠ n := hne
    obtain ⟨m, hm⟩ : ∃ m, s.size p = m + n := ⟨s.size p - n, by omega⟩
    have hsub : (s.hdr p).size - n = m := by
      show s.size p - n = m
      omega
    have hplus : plus p m = p + 8 * m := plus_eq (by omega)
    have hend : plus (p + 8 * m) 1 = p + 8 * m + 8 := plus_eq (by omega)
    obtain ⟨htF, htA, hheap⟩ := hs.takeTail hq hpF (by omega) hn hm
    have hacc : p + 8 * m + 8 ≤ s.mapped := by omega
    refine ⟨F, p + 8 * m, _, ?_, htA, by omega, hheap, ?_, ?_⟩
    · have hrun := setSize_run (s := s.setHdr p ⟨(s.hdr p).ptr, m⟩) (b := p + 8 * m) (v := n) hacc
      rw [hsub, hplus, bind_of_ok (setSize_run (hs.access (.inl hpR))), bind_of_ok hrun, hend]
      rfl
    · exact ((Frame.setHdr hpA).trans (Frame.setHdr htA)).trans ⟨rfl, rfl, rfl, rfl, fun _ _ => rfl⟩
    · exact St.setHdr_size_self

/-! ### Going around the list -/

/-- On the way from `p` to the end of the list a large enough block is found, at the latest `c`. -/
theorem mallocLoop_found (sbrk : Nat → M (Option Nat)) (hs : Heap base F A s) (hc : c ∈ insert base F) (hsize : n ≤ s.size c) {k : Nat}
    (hq : q ∈ insert base F) (hp : (s.hdr q).ptr = p)
    (hle : SortedRing.dist (insert base F) p c ≤ SortedRing.dist (insert base F) p s.freep)
    (hk : SortedRing.dist (insert base F) p c < k) :
    ∃ q' p', q' ∈ insert base F ∧ (s.hdr q').ptr = p' ∧ n ≤ s.size p' ∧
      mallocLoop sbrk n k q p s = take n q' p' (s.hdr p') s := by
  induction k generalizing q p with
  | zero => exact absurd hk (Nat.not_lt_zero _)
  | succ k ih =>
    have hpR : p ∈ insert base F := hp ▸ hs.ring.next_mem hq
    rw [mallocLoop, bind_of_ok (load_run (hs.access (.inl hpR)))]
    by_cases hbig : n ≤ s.size p
    · exact ⟨q, p, hq, hp, hbig, by rw [if_pos (show (s.hdr p).size ≥ n from hbig)]⟩
    · have hpc : p ≠ c := fun heq => hbig (heq ▸ hsize)
      have hpf : p ≠ s.freep := fun heq => hpc (SortedRing.dist_eq_zero hpR (by
        rw [← heq, SortedRing.dist_self] at hle
        omega))
      have h1 := hs.ring.dist_next hpR hc hpc
      have h2 := hs.ring.dist_next hpR hs.freep hpf
      rw [if_neg (show ¬ (s.hdr p).size ≥ n from hbig)]
      show ∃ q' p', q' ∈ insert base F ∧ (s.hdr q').ptr = p' ∧ n ≤ s.size p' ∧ (if p = s.freep then _ else _ : M Nat) s = _
      rw [if_neg hpf]
      exact ih hpR rfl (by omega) (by omega)

theorem mallocLoop_none (sbrk : Nat → M (Option Nat)) (hs : Heap base F A s) (hsmall : ∀ c ∈ insert base F, s.size c < n) {k : Nat}
    (hp : p ∈ insert base F) (hk : SortedRing.dist (insert base F) p s.freep < k) :
    ∃ k', k ≤ k' + SortedRing.dist (insert base F) p s.freep + 1 ∧
      mallocLoop sbrk n k q p s = (do
        let p ← morecore sbrk n
        if p = 0 then return 0
        else do
          let h ← load p
          mallocLoop sbrk n k' p h.ptr : M Nat) s := by
  induction k generalizing q p with
  | zero => exact absurd hk (Nat.not_lt_zero _)
  | succ k ih =>
    have hno : ¬ (s.hdr p).size ≥ n := (hsmall p hp).not_ge
    rw [mallocLoop, bind_of_ok (load_run (hs.access (.inl hp))), if_neg hno]
    show ∃ k', _ ∧ (if p = s.freep then _ else _ : M Nat) s = _
    by_cases hpf : p = s.freep
    · rw [if_pos hpf]
      exact ⟨k, by omega, rfl⟩
    · have h1 := hs.ring.dist_next hp hs.freep hpf
      rw [if_neg hpf]
      obtain ⟨k', hk', hrun⟩ := ih (q := p) (hs.ring.next_mem hp) (by omega)
      exact ⟨k', by omega, hrun⟩

/-! ### `morecore` -/

/-- `sbrk` gives memory above all that the program has, or it fails and gives none. The requests are those
that are positive as an `int`. -/
def Fresh (sbrk : Nat → M (Option Nat)) : Prop := ∀ n s, 0 < n → n < 2 ^ 31 → s.sz ≤ s.mapped →
  sbrk n s = (.ok none, { s with refused := s.refused + 1 }) ∨
  ∃ p m, s.sz ≤ p ∧ p + n < 2 ^ 32 ∧ p + n ≤ m ∧ s.mapped ≤ m ∧
    sbrk n s = (.ok (some p), { s with sz := p + n, mapped := m, got := (p, n / 8) :: s.got })

def Refuses (sbrk : Nat → M (Option Nat)) (n sz : Nat) : Prop := ∃ s, s.sz = sz ∧ (sbrk n s).1 = .ok none

theorem Heap.extend {nu m : Nat} {h : Header} (hs : Heap base F A s) (hle : s.sz ≤ p) (hlt : p + 8 * nu < 2 ^ 32)
    (hm : p + 8 * nu ≤ m) (hnu : 0 < nu) (hh : h.size = nu) : p ∉ A ∧ Heap base F (insert p A)
      (St.setHdr { s with sz := p + 8 * nu, mapped := m, got := (p, nu) :: s.got } p h) := by
  have hroom := hs.room
  have hout : ∀ c, c ∈ F ∨ c ∈ A → c ≠ p := fun c hc heq => by
    have h1 := (hs.bounds hc).2
    have h2 := hs.pos c hc
    omega
  have hpA : p ∉ A := fun hA => hout p (.inr hA) rfl
  have hpF : p ∉ insert base F := fun hmem => by
    have := hs.insert_base hmem
    omega
  have hpF' : p ∉ F := fun hF => hpF (Finset.mem_insert_of_mem hF)
  generalize hs1 : ({ s with sz := p + 8 * nu, mapped := m, got := (p, nu) :: s.got } : St) = s1
  have hsize : ∀ c, s1.size c = s.size c := fun c => by rw [← hs1]; rfl
  have hobt : ∀ x, s1.obtained x = cov x p nu + s.obtained x := fun x => by
    rw [← hs1]
    exact List.sum_cons
  have hother : ∀ c, c ∈ F ∨ c ∈ A → (s1.setHdr p h).size c = s.size c := fun c hc => by
    rw [St.setHdr_size_of_ne (hout c hc), hsize]
  have hself : (s1.setHdr p h).size p = nu := by rw [St.setHdr_size_self, hh]
  refine ⟨hpA, ⟨hs.base_pos, ?_, ?_, ?_, fun x => ?_, fun x => ?_, fun x hx => ?_, ?_⟩, ?_, ?_⟩
  · rw [St.setHdr_size_of_ne (by omega), hsize, hs.base_size]
  · rintro c (hc | hc)
    · rw [hother c (.inl hc)]
      exact hs.pos c (.inl hc)
    · rcases Finset.mem_insert.1 hc with rfl | hc
      · rw [hself]
        exact hnu
      · rw [hother c (.inr hc)]
        exact hs.pos c (.inr hc)
  · intro c hc d hd
    rw [hother c (.inl hc)]
    exact hs.merged c hc d hd
  · have h1 := hs.cover x
    rw [St.weight_insert hpA, hself, St.weight_congr fun c hc => hother c (.inl hc),
      St.weight_congr fun c hc => hother c (.inr hc)]
    show _ = s1.obtained x
    rw [hobt]
    omega
  · show s1.obtained x ≤ 1
    rw [hobt]
    have h1 := hs.once x
    have h2 := hs.within x
    unfold cov
    split <;> omega
  · have hx : 0 < s1.obtained x := hx
    show base + 8 ≤ x ∧ x < s1.sz
    rw [hobt] at hx
    have h1 := hs.within x
    have hsz : s1.sz = p + 8 * nu := by rw [← hs1]
    rw [hsz]
    unfold cov at hx
    split at hx <;> omega
  · rw [← hs1]
    show base + 8 ≤ p + 8 * nu ∧ p + 8 * nu ≤ m ∧ p + 8 * nu < 2 ^ 32
    omega
  · refine hs.ring.congr fun c hc => ?_
    have hne : c ≠ p := fun heq => hpF (heq ▸ hc)
    rw [St.setHdr_hdr, update_of_ne hne, ← hs1]
  · rw [← hs1]
    exact hs.freep

theorem morecore_run (hsbrk : Fresh sbrk) (hs : Heap base F A s) (hn : atLeast n * 8 < 2 ^ 31) :
    morecore sbrk n s = (.ok 0, { s with refused := s.refused + 1 }) ∧ Refuses sbrk (atLeast n * 8) s.sz ∨
    ∃ F' s', morecore sbrk n s = (.ok s'.freep, s') ∧ Heap base F' A s' ∧ (∃ c ∈ F', n ≤ s'.size c) ∧
      s'.refused = s.refused ∧ ∀ a ∈ A, s'.size a = s.size a := by
  have hpos : 0 < atLeast n ∧ n ≤ atLeast n := by
    unfold atLeast
    split <;> omega
  have hroom := hs.room
  have hmod : atLeast n * 8 % 2 ^ 32 = atLeast n * 8 := Nat.mod_eq_of_lt (by omega)
  unfold morecore
  rw [hmod]
  generalize atLeast n = nu at *
  rcases hsbrk (nu * 8) s (by omega) hn hroom.2.1 with hfail | ⟨p, m, hle, hlt, hm, -, hok⟩
  · left
    rw [bind_of_ok hfail]
    exact ⟨rfl, s, rfl, congrArg Prod.fst hfail⟩
  · right
    rw [Nat.mul_div_cancel _ (by decide), Nat.mul_comm nu 8] at hok
    rw [Nat.mul_comm] at hlt hm
    rw [Nat.mul_comm nu 8, bind_of_ok hok]
    have hacc : p + 8 ≤ m := by omega
    obtain ⟨hpA, hext⟩ := hs.extend (h := ⟨(s.hdr p).ptr, nu⟩) hle hlt hm hpos.1 rfl
    obtain ⟨F', s', hrun, hheap, hframe, c, hc, hsize⟩ := free_run hext (Finset.mem_insert_self p A)
    rw [Finset.erase_insert hpA] at hheap hframe
    rw [St.setHdr_size_self] at hsize
    have hset := setSize_run (b := p) (v := nu)
      (s := { s with sz := p + 8 * nu, mapped := m, got := (p, nu) :: s.got }) hacc
    refine ⟨F', s', ?_, hheap, ⟨c, hc, hpos.2.trans hsize⟩, hframe.refused, fun a ha => ?_⟩
    · have hplus : plus p 1 = p + 8 := plus_eq (by omega)
      dsimp only
      rw [bind_of_ok hset, hplus]
      exact bind_of_ok hrun
    · have hne : a ≠ p := fun heq => hpA (heq ▸ ha)
      rw [hframe.size a ha, St.setHdr_size_of_ne hne]
      rfl

/-! ### `malloc` -/

structure Idle (base : Nat) (s : St) : Prop where
  freep : s.freep = 0
  got : s.got = []
  base_pos : 0 < base
  room : base + 8 ≤ s.sz ∧ s.sz ≤ s.mapped ∧ s.sz < 2 ^ 32

theorem Idle.heap (hi : Idle base s) : Heap base ∅ ∅ { s.setHdr base ⟨base, 0⟩ with freep := base } := by
  have hptr : (s.setHdr base ⟨base, 0⟩).hdr base = ⟨base, 0⟩ := update_self ..
  have hnone : ∀ x, (s.setHdr base ⟨base, 0⟩).obtained x = 0 := fun x => by
    show (s.got.map fun g => cov x g.1 g.2).sum = 0
    rw [hi.got]
    rfl
  refine ⟨⟨hi.base_pos, congrArg Header.size hptr, ?_, ?_, fun x => (hnone x).symm, fun x => ?_, fun x hx => ?_,
    hi.room⟩, ?_, Finset.mem_insert_self _ _⟩
  · rintro b (hb | hb) <;> exact absurd hb (Finset.notMem_empty b)
  · exact fun b hb => absurd hb (Finset.notMem_empty b)
  · exact (hnone x).le.trans (Nat.zero_le 1)
  · exact absurd (hnone x) (Nat.pos_iff_ne_zero.1 hx)
  · rw [insert_empty_eq]
    exact .singleton (congrArg Header.ptr hptr)

theorem Idle.begin (hi : Idle base s) :
    begin base s = (.ok base, { s.setHdr base ⟨base, 0⟩ with freep := base }) := by
  have hroom := hi.room
  have hacc : base + 8 ≤ s.mapped := by omega
  have hset := setSize_run (b := base) (v := 0) (s := { s.setHdr base ⟨base, s.size base⟩ with freep := base }) hacc
  have hsame : St.setHdr { s.setHdr base ⟨base, s.size base⟩ with freep := base } base
      ⟨((s.setHdr base ⟨base, s.size base⟩).hdr base).ptr, 0⟩ = { s.setHdr base ⟨base, 0⟩ with freep := base } := by
    rw [St.setHdr_hdr, update_self]
    simp only [St.setHdr, update_idem]
  show (if s.freep = 0 then _ else _ : M Nat) s = _
  rw [if_pos hi.freep, bind_of_ok (setPtr_run hacc)]
  show (setSize base 0 >>= _) _ = _
  rw [bind_of_ok hset, ← hsame]
  rfl

theorem Heap.begin (hs : Heap base F A s) : begin base s = (.ok s.freep, s) := by
  have hne : s.freep ≠ 0 := fun heq => by
    have h1 := hs.ring.base_le _ hs.freep
    have h2 := hs.base_pos
    omega
  show (if s.freep = 0 then _ else _ : M Nat) s = _
  rw [if_neg hne]
  rfl

theorem mallocLoop_run (hsbrk : Fresh sbrk) (hs : Heap base F A s) (hn : 0 < n) (hmax : atLeast n * 8 < 2 ^ 31) :
    (mallocLoop sbrk n maxRounds s.freep (s.hdr s.freep).ptr s = (.ok 0, { s with refused := s.refused + 1 }) ∧
      Refuses sbrk (atLeast n * 8) s.sz) ∨
    ∃ F' t s', mallocLoop sbrk n maxRounds s.freep (s.hdr s.freep).ptr s = (.ok (t + 8), s') ∧ t ∉ A ∧
      Heap base F' (insert t A) s' ∧ s'.refused = s.refused ∧ s'.size t = n ∧ ∀ a ∈ A, s'.size a = s.size a := by
  have hpR := hs.ring.next_mem hs.freep
  have hcard := hs.card_le
  have hself := hs.ring.dist_next_self hs.freep
  by_cases hbig : ∃ c ∈ insert base F, n ≤ s.size c
  · obtain ⟨c, hc, hsize⟩ := hbig
    have hdist := SortedRing.dist_lt (R := insert base F) (c := (s.hdr s.freep).ptr) hc
    obtain ⟨q, p, hq, hp, hle, hrun⟩ := mallocLoop_found sbrk hs hc hsize hs.freep rfl (k := maxRounds)
      (by omega) (by rw [maxRounds]; omega)
    obtain ⟨F', t, s', htake, htA, -, hheap, hframe, ht⟩ := take_run hs hq hp hn hle
    exact .inr ⟨F', t, s', hrun.trans htake, htA, hheap, hframe.refused, ht, hframe.size⟩
  · have hsmall : ∀ c ∈ insert base F, s.size c < n := fun c hc => not_le.1 fun hle => hbig ⟨c, hc, hle⟩
    obtain ⟨k, hk, hrun⟩ := mallocLoop_none sbrk (q := s.freep) hs hsmall hpR (k := maxRounds)
      (by rw [maxRounds]; omega)
    rw [maxRounds] at hk
    rw [hrun]
    rcases morecore_run hsbrk hs hmax with ⟨hfail, href⟩ | ⟨F1, s1, hmore, hs1, ⟨c, hc, hsize⟩, href, hsame⟩
    · left
      rw [bind_of_ok hfail]
      exact ⟨rfl, href⟩
    · right
      have hne : s1.freep ≠ 0 := fun heq => by
        have h1 := hs1.ring.base_le _ hs1.freep
        have h2 := hs1.base_pos
        omega
      have hcR := Finset.mem_insert_of_mem (b := base) hc
      have hself1 := hs1.ring.dist_next_self hs1.freep
      have hcard1 := hs1.card_le
      have hdist := SortedRing.dist_lt (R := insert base F1) (c := (s1.hdr s1.freep).ptr) hcR
      obtain ⟨q, p, hq, hp, hle, hrun1⟩ := mallocLoop_found sbrk hs1 hcR hsize hs1.freep rfl (k := k)
        (by omega) (by omega)
      obtain ⟨F', t, s', htake, htA, -, hheap, hframe, ht⟩ := take_run hs1 hq hp hn hle
      refine ⟨F', t, s', ?_, htA, hheap, hframe.refused.trans href, ht, fun a ha => ?_⟩
      · rw [bind_of_ok hmore, if_neg hne, bind_of_ok (load_run (hs1.access (.inl hs1.freep))), hrun1, htake]
      · rw [hframe.size a ha, hsame a ha]

/-- The blocks in use are `A`, and the list is there if `malloc` has been called. -/
def Ready (base : Nat) (A : Finset Nat) (s : St) : Prop := (Idle base s ∧ A = ∅) ∨ ∃ F, Heap base F A s

/-- The blocks, the memory of the process and, once it is there, the list are as before. -/
structure Unchanged (base : Nat) (s s' : St) : Prop where
  sz : s'.sz = s.sz
  mapped : s'.mapped = s.mapped
  got : s'.got = s.got
  blocks : ∀ a, a ≠ base → s'.hdr a = s.hdr a
  list : s.freep ≠ 0 → s'.hdr base = s.hdr base ∧ s'.freep = s.freep

theorem units_pos (nbytes : Nat) : 0 < units nbytes := Nat.succ_pos _

theorem malloc_run (hsbrk : Fresh sbrk) (hs : Ready base A s) (nbytes : Nat)
    (hmax : atLeast (units nbytes) * 8 < 2 ^ 31) : ∃ r s', malloc base sbrk nbytes s = (.ok r, s') ∧
      (r = 0 ∧ s'.refused = s.refused + 1 ∧ Refuses sbrk (atLeast (units nbytes) * 8) s.sz ∧ Unchanged base s s' ∧
        (∃ F, Heap base F A s') ∨
      ∃ F t, r = t + 8 ∧ t ∉ A ∧ Heap base F (insert t A) s' ∧ s'.refused = s.refused ∧
        s'.size t = units nbytes ∧ ∀ a ∈ A, s'.size a = s.size a) := by
  obtain ⟨F, s1, hbegin, hheap, href, hsame, hsize⟩ : ∃ F s1, begin base s = (.ok s1.freep, s1) ∧ Heap base F A s1 ∧
      s1.refused = s.refused ∧ Unchanged base s s1 ∧ ∀ a ∈ A, s1.size a = s.size a := by
    rcases hs with ⟨hidle, rfl⟩ | ⟨F, hheap⟩
    · refine ⟨∅, _, hidle.begin, hidle.heap, rfl, ⟨rfl, rfl, rfl, fun a ha => ?_, fun hne => ?_⟩, fun a ha => ?_⟩
      · exact update_of_ne ha _ _
      · exact absurd hidle.freep hne
      · exact absurd ha (Finset.notMem_empty a)
    · exact ⟨F, s, hheap.begin, hheap, rfl, ⟨rfl, rfl, rfl, fun _ _ => rfl, fun _ => ⟨rfl, rfl⟩⟩, fun _ _ => rfl⟩
  rw [malloc, bind_of_ok hbegin, bind_of_ok (load_run (hheap.access (.inl hheap.freep)))]
  rcases mallocLoop_run hsbrk hheap (units_pos nbytes) hmax with ⟨hfail, hno⟩ | ⟨F', t, s', hrun, htA, hh, hr, ht, hsz⟩
  · rw [hsame.sz] at hno
    refine ⟨_, _, hfail, .inl ⟨rfl, ?_, hno, ⟨hsame.sz, hsame.mapped, hsame.got, hsame.blocks, hsame.list⟩, F, ?_⟩⟩
    · rw [← href]
    · exact ⟨⟨hheap.base_pos, hheap.base_size, hheap.pos, hheap.merged, hheap.cover, hheap.once, hheap.within,
        hheap.room⟩, hheap.ring, hheap.freep⟩
  · exact ⟨_, s', hrun, .inr ⟨F', t, rfl, htA, hh, hr.trans href, ht, fun a ha => (hsz a ha).trans (hsize a ha)⟩⟩

/-! ### Programs -/

/-- A program with the pointers that `malloc` has returned to it and that it has not freed. -/
structure Prog where
  st : St
  live : Finset Nat

inductive Act
  | malloc (nbytes : Nat)
  | free (ap : Nat)

def step (base : Nat) (sbrk : Nat → M (Option Nat)) (g : Prog) : Act → Option Prog
  | .malloc nbytes =>
    match malloc base sbrk nbytes g.st with
    | (.ok r, st) => some ⟨st, if r = 0 then g.live else insert r g.live⟩
    | (.error _, _) => none
  | .free ap =>
    if ap ∈ g.live then
      match free ap g.st with
      | (.ok (), st) => some ⟨st, g.live.erase ap⟩
      | (.error _, _) => none
    else none

/-- No request is for more than `lim` bytes. -/
def Act.upTo (lim : Nat) : Act → Prop
  | .malloc nbytes => nbytes ≤ lim
  | .free _ => True

instance (lim : Nat) : (a : Act) → Decidable (a.upTo lim)
  | .malloc nbytes => inferInstanceAs (Decidable (nbytes ≤ lim))
  | .free _ => inferInstanceAs (Decidable True)

def payload : Nat ↪ Nat := ⟨(· + 8), fun _ _ h => Nat.add_right_cancel h⟩

def Prog.Inv (base : Nat) (g : Prog) : Prop := ∃ A, Ready base A g.st ∧ g.live = A.map payload

theorem free_live {ap : Nat} (hs : Ready base A s) (hap : ap ∈ A.map payload) :
    ∃ s', free ap s = (.ok (), s') ∧ ∃ A', Ready base A' s' ∧ (A.map payload).erase ap = A'.map payload := by
  obtain ⟨bp, hbp, rfl⟩ := Finset.mem_map.1 hap
  rcases hs with ⟨-, rfl⟩ | ⟨F, hheap⟩
  · exact absurd hbp (Finset.notMem_empty bp)
  · obtain ⟨F', s', hrun, hheap', -⟩ := free_run hheap hbp
    exact ⟨s', hrun, A.erase bp, .inr ⟨F', hheap'⟩, (Finset.map_erase payload A bp).symm⟩

/-- The largest request for which the argument of `sbrk` is a positive `int`. -/
abbrev maxRequest : Nat := 2 ^ 31 - 16

theorem units_small {nbytes : Nat} (h : nbytes ≤ maxRequest) : atLeast (units nbytes) * 8 < 2 ^ 31 := by
  simp only [maxRequest] at h
  unfold atLeast units
  split <;> omega

theorem Prog.Inv.step {g g' : Prog} {a : Act} (hsbrk : Fresh sbrk) (hg : g.Inv base) (ha : a.upTo maxRequest)
    (h : Umalloc.step base sbrk g a = some g') : g'.Inv base := by
  obtain ⟨A, hready, hlive⟩ := hg
  rcases a with nbytes | ap
  · obtain ⟨r, s', hrun, hcase⟩ := malloc_run hsbrk hready nbytes (units_small ha)
    rw [Umalloc.step, hrun] at h
    obtain rfl := Option.some.inj h
    rcases hcase with ⟨rfl, -, -, -, F, hheap⟩ | ⟨F, t, rfl, -, hheap, -⟩
    · exact ⟨A, .inr ⟨F, hheap⟩, by rw [if_pos rfl, hlive]⟩
    · refine ⟨insert t A, .inr ⟨F, hheap⟩, ?_⟩
      rw [if_neg (Nat.succ_ne_zero _), hlive, Finset.map_insert]
      rfl
  · rw [Umalloc.step] at h
    split at h
    · rename_i hap
      rw [hlive] at hap
      obtain ⟨s', hrun, A', hready', herase⟩ := free_live hready hap
      rw [hrun] at h
      obtain rfl := Option.some.inj h
      exact ⟨A', hready', by rw [hlive, herase]⟩
    · cases h

theorem Prog.Inv.reach {g g' : Prog} {lim : Nat} (hsbrk : Fresh sbrk) (hlim : lim ≤ maxRequest) (hg : g.Inv base)
    (h : Machine.Reach (Umalloc.step base sbrk) (fun _ a => a.upTo lim) g g') : g'.Inv base := by
  refine h.inv hg fun g1 a g2 h1 ha hstep => h1.step hsbrk ?_ hstep
  rcases a with nbytes | ap
  · exact Nat.le_trans ha hlim
  · trivial

/-! ### The heap of a program -/

/-- A free block, or one in use. -/
def Prog.IsBlock (g : Prog) (base : Nat) (l : List Nat) (b : Nat) : Prop := (b ∈ l ∧ b ≠ base) ∨ b + 8 ∈ g.live

structure WellFormed (base : Nat) (g : Prog) (l : List Nat) : Prop where
  head : l.head? = some base
  increasing : l.Pairwise (· < ·)
  circular : ∀ i, i < l.length → (g.st.hdr (l.getD i base)).ptr = l.getD (i + 1) base
  freep : g.st.freep ∈ l
  merged : ∀ b ∈ l, b ≠ base → ∀ c ∈ l, b + 8 * g.st.size b ≠ c
  separate : ∀ b ∈ l, b + 8 ∉ g.live
  disjoint : ∀ b c, g.IsBlock base l b → g.IsBlock base l c → b < c → b + 8 * g.st.size b ≤ c
  exact : ∀ x, (∃ r ∈ g.st.got, r.1 ≤ x ∧ x < r.1 + 8 * r.2) ↔
    ∃ b, g.IsBlock base l b ∧ b ≤ x ∧ x < b + 8 * g.st.size b

theorem cov_pos {x a k : Nat} : 0 < cov x a k ↔ a ≤ x ∧ x < a + 8 * k := by
  unfold cov
  split <;> simp_all

theorem St.obtained_pos {x : Nat} : 0 < s.obtained x ↔ ∃ r ∈ s.got, r.1 ≤ x ∧ x < r.1 + 8 * r.2 := by
  unfold obtained
  rw [Nat.pos_iff_ne_zero, ne_eq, List.sum_eq_zero_iff]
  simp only [List.mem_map, forall_exists_index, and_imp, forall_apply_eq_imp_iff₂, not_forall, exists_prop,
    ← Nat.pos_iff_ne_zero, cov_pos]

theorem St.weight_pos {x : Nat} : 0 < s.weight S x ↔ ∃ b ∈ S, b ≤ x ∧ x < b + 8 * s.size b := by
  rw [weight, Finset.sum_pos_iff]
  simp only [cov_pos]

theorem Heap.wellFormed {g : Prog} (hs : Heap base F A g.st) (hlive : g.live = A.map payload) :
    ∃ l, WellFormed base g l := by
  obtain ⟨l, hinc, hmem, hhead, hcirc⟩ := hs.ring.exists_list
  have hused : ∀ b, b + 8 ∈ g.live ↔ b ∈ A := fun b => by
    rw [hlive]
    exact Finset.mem_map' payload
  have hblock : ∀ b, g.IsBlock base l b ↔ b ∈ F ∨ b ∈ A := fun b => by
    rw [Prog.IsBlock, hused, hmem, Finset.mem_insert]
    refine or_congr_left ⟨fun h => h.1.resolve_left h.2, fun h => ⟨.inr h, (hs.base_lt (.inl h)).ne'⟩⟩
  refine ⟨l, hhead, hinc, hcirc, (hmem _).2 hs.freep, fun b hb hne c hc => ?_, fun b hb => ?_, fun b c hb hc => ?_,
    fun x => ?_⟩
  · have hbF : b ∈ F := Finset.mem_of_mem_insert_of_ne ((hmem b).1 hb) hne
    rcases Finset.mem_insert.1 ((hmem c).1 hc) with rfl | hcF
    · have := hs.base_lt (.inl hbF)
      omega
    · exact hs.merged b hbF c hcF
  · rw [hused]
    exact fun hA => hs.not_mem_insert hA ((hmem b).1 hb)
  · exact hs.disjoint ((hblock b).1 hb) ((hblock c).1 hc)
  · rw [← St.obtained_pos, ← hs.cover x, Nat.add_pos_iff_pos_or_pos, St.weight_pos, St.weight_pos, ← exists_or]
    simp only [← or_and_right, hblock]

/-- The free list and the blocks of a program are as they should be, and its calls return. -/
theorem heap_wellFormed (hsbrk : Fresh sbrk) {st : St} (h₀ : Idle base st) {g : Prog}
    (hr : Machine.Reach (step base sbrk) (fun _ a => a.upTo (2 ^ 28 - 1)) ⟨st, ∅⟩ g) :
    (Idle base g.st ∧ g.live = ∅ ∨ ∃ l, WellFormed base g l) ∧
    (∀ nbytes, nbytes < 2 ^ 28 → ∃ r st', malloc base sbrk nbytes g.st = (.ok r, st') ∧
      (r = 0 → g.st.refused < st'.refused)) ∧
    ∀ ap ∈ g.live, ∃ st', free ap g.st = (.ok (), st') := by
  have hinv : Prog.Inv base ⟨st, ∅⟩ := ⟨∅, .inl ⟨h₀, rfl⟩, rfl⟩
  obtain ⟨A, hready, hlive⟩ := hinv.reach hsbrk (by decide) hr
  refine ⟨?_, fun nbytes hlt => ?_, fun ap hap => ?_⟩
  · rcases hready with ⟨hidle, rfl⟩ | ⟨F, hheap⟩
    · exact .inl ⟨hidle, hlive⟩
    · exact .inr (hheap.wellFormed hlive)
  · have hle : nbytes ≤ maxRequest := by
      simp only [maxRequest]
      omega
    obtain ⟨r, st', hrun, hcase⟩ := malloc_run hsbrk hready nbytes (units_small hle)
    refine ⟨r, st', hrun, fun hzero => ?_⟩
    rcases hcase with ⟨-, href, -⟩ | ⟨F, t, rfl, -⟩
    · omega
    · exact absurd hzero (Nat.succ_ne_zero _)
  · rw [hlive] at hap
    obtain ⟨st', hrun, -⟩ := free_live hready hap
    exact ⟨st', hrun⟩

def bump (n : Nat) : M (Option Nat) := fun s =>
  if s.sz + n < 2 ^ 32 then
    (.ok (some s.sz), { s with sz := s.sz + n, mapped := max s.mapped (s.sz + n), got := (s.sz, n / 8) :: s.got })
  else (.ok none, { s with refused := s.refused + 1 })

theorem fresh_bump : Fresh bump := fun n s _ _ _ => by
  by_cases h : s.sz + n < 2 ^ 32
  · exact .inr ⟨s.sz, _, le_rfl, h, le_max_right _ _, le_max_left _ _, if_pos h⟩
  · exact .inl (if_neg h)

def newborn : St := ⟨fun _ => ⟨0, 0⟩, 0, 12288, 12288, [], 0⟩

theorem idle_newborn : Idle 4096 newborn := ⟨rfl, rfl, by decide, by decide⟩

/-- Three blocks are handed out, and the second and the first are freed again. -/
theorem heap_wellFormed_three : ∃ g : Prog, g.live = {44872} ∧ (∃ l, WellFormed 4096 g l) ∧
    ∃ r st', malloc 4096 bump 100 g.st = (.ok r, st') ∧ (r = 0 → g.st.refused < st'.refused) := by
  have hrun : ((Machine.runOk (step 4096 bump) (fun _ a => a.upTo (2 ^ 28 - 1)) ⟨newborn, ∅⟩
      [.malloc 100, .malloc 50, .malloc 8, .free 44888, .free 44952]).any fun g => decide (g.live = {44872})) = true := by
    decide +kernel
  obtain ⟨g, hg, hlive⟩ := (Option.any_eq_true _ _).1 hrun
  have hlive : g.live = {44872} := of_decide_eq_true hlive
  obtain ⟨hlist, hmalloc, -⟩ := heap_wellFormed fresh_bump idle_newborn (.of_runOk hg)
  refine ⟨g, hlive, hlist.resolve_left fun hidle => ?_, hmalloc 100 (by decide)⟩
  exact Finset.singleton_ne_empty _ (hlive.symm.trans hidle.2)

end Xv6.Umalloc
