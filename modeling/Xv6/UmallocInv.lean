import Xv6.Umalloc
import Xv6.Lib.SortedRing

/-!
# The heap of a user program

`Heap base F A s`: the free blocks `F` are the circular list, in the order of their addresses and none
right behind another; with the blocks `A` in use they cover every byte obtained from `sbrk` once, and no
other byte. Each byte counts the blocks it lies in (`cov`), so that splitting and joining blocks is adding
numbers.
-/

namespace Xv6.Umalloc

open Exec Function
open Vm (sub32)

def cov (x a n : Nat) : Nat := if a ≤ x ∧ x < a + 8 * n then 1 else 0

theorem cov_add (x a m n : Nat) : cov x a (m + n) = cov x a m + cov x (a + 8 * m) n := by
  unfold cov
  split <;> split <;> split <;> omega

theorem cov_self {a n : Nat} (h : 0 < n) : cov a a n = 1 := if_pos (by omega)

namespace St

variable (s : St)

def size (b : Nat) : Nat := (s.hdr b).size

/-- How many blocks of `S` the byte `x` lies in. -/
def weight (S : Finset Nat) (x : Nat) : Nat := ∑ b ∈ S, cov x b (s.size b)

def obtained (x : Nat) : Nat := (s.got.map fun g => cov x g.1 g.2).sum

end St

structure Blocks (base : Nat) (F A : Finset Nat) (s : St) : Prop where
  base_pos : 0 < base
  base_size : s.size base = 0
  pos : ∀ b, b ∈ F ∨ b ∈ A → 0 < s.size b
  merged : ∀ b ∈ F, ∀ c ∈ F, b + 8 * s.size b ≠ c
  cover : ∀ x, s.weight F x + s.weight A x = s.obtained x
  once : ∀ x, s.obtained x ≤ 1
  within : ∀ x, 0 < s.obtained x → base + 8 ≤ x ∧ x < s.sz
  room : base + 8 ≤ s.sz ∧ s.sz ≤ s.mapped ∧ s.sz < 2 ^ 32

structure Heap (base : Nat) (F A : Finset Nat) (s : St) : Prop extends Blocks base F A s where
  ring : SortedRing base (insert base F) fun c => (s.hdr c).ptr
  freep : s.freep ∈ insert base F

variable {base : Nat} {F A S : Finset Nat} {s s' : St} {b c p q x bp : Nat} {h : Header}

/-! ### Sums -/

theorem St.cov_le_weight (hb : b ∈ S) (x : Nat) : cov x b (s.size b) ≤ s.weight S x :=
  Finset.single_le_sum (f := fun b => cov x b (s.size b)) (fun _ _ => Nat.zero_le _) hb

theorem St.weight_insert (hb : b ∉ S) (x : Nat) : s.weight (insert b S) x = cov x b (s.size b) + s.weight S x :=
  Finset.sum_insert hb

theorem St.weight_erase (hb : b ∈ S) (x : Nat) : cov x b (s.size b) + s.weight (S.erase b) x = s.weight S x :=
  Finset.add_sum_erase S (fun b => cov x b (s.size b)) hb

theorem St.weight_congr (heq : ∀ c ∈ S, s'.size c = s.size c) (x : Nat) : s'.weight S x = s.weight S x :=
  Finset.sum_congr rfl fun c hc => by rw [heq c hc]

theorem St.weight_pair (hb : b ∈ S) (hc : c ∈ S) (hne : b ≠ c) (x : Nat) :
    cov x b (s.size b) + cov x c (s.size c) ≤ s.weight S x := by
  rw [← weight_erase hb x]
  exact Nat.add_le_add_left (cov_le_weight (Finset.mem_erase.2 ⟨hne.symm, hc⟩) x) _

theorem St.setHdr_hdr : (s.setHdr b h).hdr = update s.hdr b h := rfl

@[simp] theorem St.setHdr_size_self : (s.setHdr b h).size b = h.size := by
  rw [size, setHdr_hdr, update_self]

theorem St.setHdr_size_of_ne (hne : c ≠ b) : (s.setHdr b h).size c = s.size c := by
  rw [size, setHdr_hdr, update_of_ne hne, size]

theorem St.setHdr_size_link (v c : Nat) : (s.setHdr b ⟨v, s.size b⟩).size c = s.size c := by
  by_cases hcb : c = b
  · rw [hcb, setHdr_size_self]
  · rw [setHdr_size_of_ne hcb]

theorem St.setHdr_setHdr {h' : Header} : (s.setHdr b h).setHdr b h' = s.setHdr b h' := by
  rw [setHdr, setHdr_hdr, update_idem]
  rfl

theorem St.setHdr_ptr : (fun c => ((s.setHdr b h).hdr c).ptr) = update (fun c => (s.hdr c).ptr) b h.ptr := by
  funext c
  by_cases hc : c = b
  · subst hc
    rw [setHdr_hdr, update_self, update_self]
  · rw [setHdr_hdr, update_of_ne hc, update_of_ne hc]

/-! ### Where blocks are -/

namespace Blocks

variable (hp : Blocks base F A s)
include hp

theorem cov_le (hb : b ∈ F ∨ b ∈ A) (x : Nat) : cov x b (s.size b) ≤ s.obtained x := by
  rw [← hp.cover x]
  rcases hb with hb | hb
  · exact (St.cov_le_weight hb x).trans (Nat.le_add_right _ _)
  · exact (St.cov_le_weight hb x).trans (Nat.le_add_left _ _)

theorem bounds (hb : b ∈ F ∨ b ∈ A) : base + 8 ≤ b ∧ b + 8 * s.size b ≤ s.sz := by
  have hpos := hp.pos b hb
  have hfirst := hp.within b (lt_of_lt_of_le (by rw [cov_self hpos]; exact Nat.one_pos) (hp.cov_le hb b))
  have hlast : cov (b + 8 * s.size b - 1) b (s.size b) = 1 := if_pos (by omega)
  have := hp.within _ (lt_of_lt_of_le (by rw [hlast]; exact Nat.one_pos) (hp.cov_le hb (b + 8 * s.size b - 1)))
  omega

theorem not_mem_used (hb : b ∈ F) : b ∉ A := fun hA => by
  have hpos := hp.pos b (.inl hb)
  have h1 := St.cov_le_weight (s := s) hb b
  have h2 := St.cov_le_weight (s := s) hA b
  have h3 := hp.cover b
  have h4 := hp.once b
  rw [cov_self hpos] at h1 h2
  omega

theorem cov_pair (hb : b ∈ F ∨ b ∈ A) (hc : c ∈ F ∨ c ∈ A) (hne : b ≠ c) (x : Nat) :
    cov x b (s.size b) + cov x c (s.size c) ≤ 1 := by
  refine le_trans ?_ (hp.once x)
  rw [← hp.cover x]
  rcases hb with hb | hb <;> rcases hc with hc | hc
  · exact (St.weight_pair hb hc hne x).trans (Nat.le_add_right _ _)
  · exact Nat.add_le_add (St.cov_le_weight hb x) (St.cov_le_weight hc x)
  · rw [Nat.add_comm]
    exact Nat.add_le_add (St.cov_le_weight hc x) (St.cov_le_weight hb x)
  · exact (St.weight_pair hb hc hne x).trans (Nat.le_add_left _ _)

theorem disjoint (hb : b ∈ F ∨ b ∈ A) (hc : c ∈ F ∨ c ∈ A) (hlt : b < c) : b + 8 * s.size b ≤ c := by
  by_contra hgt
  have hin : cov c b (s.size b) = 1 := if_pos (by omega)
  have := hp.cov_pair hb hc hlt.ne c
  rw [hin, cov_self (hp.pos c hc)] at this
  omega

theorem base_lt (hb : b ∈ F ∨ b ∈ A) : base < b := by
  have := (hp.bounds hb).1
  omega

theorem insert_base (hb : b ∈ insert base F) : b + 8 ≤ s.sz := by
  rcases Finset.mem_insert.1 hb with rfl | hb
  · exact hp.room.1
  · have h1 := (hp.bounds (.inl hb)).2
    have h2 := hp.pos b (.inl hb)
    omega

theorem card_le : (insert base F).card ≤ 2 ^ 32 := by
  rw [← Finset.card_range (2 ^ 32)]
  refine Finset.card_le_card fun b hb => Finset.mem_range.2 ?_
  have h1 := hp.insert_base hb
  have h2 := hp.room.2.2
  omega

end Blocks

/-! ### `free` -/

theorem load_run (ha : b + 8 ≤ s.mapped) : load b s = (.ok (s.hdr b), s) := by
  show (if b + 8 ≤ s.mapped then _ else _ : M Header) s = _
  rw [if_pos ha]
  rfl

theorem setPtr_run {v : Nat} (ha : b + 8 ≤ s.mapped) :
    setPtr b v s = (.ok (), s.setHdr b ⟨v, s.size b⟩) := by
  rw [setPtr, bind_of_ok (load_run ha)]
  rfl

theorem setSize_run {v : Nat} (ha : b + 8 ≤ s.mapped) :
    setSize b v s = (.ok (), s.setHdr b ⟨(s.hdr b).ptr, v⟩) := by
  rw [setSize, bind_of_ok (load_run ha)]
  rfl

theorem setBoth_run {v w : Nat} (ha : b + 8 ≤ s.mapped) :
    (setSize b v >>= fun _ => setPtr b w) s = (.ok (), s.setHdr b ⟨w, v⟩) := by
  rw [bind_of_ok (setSize_run ha), setPtr_run (s := s.setHdr b ⟨(s.hdr b).ptr, v⟩) ha, St.setHdr_setHdr,
    St.setHdr_size_self]

theorem Blocks.access (hs : Blocks base F A s) (hb : b ∈ insert base F ∨ b ∈ A) : b + 8 ≤ s.mapped := by
  have hroom := hs.room
  rcases hb with hb | hb
  · have := hs.insert_base hb
    omega
  · have h1 := (hs.bounds (.inr hb)).2
    have h2 := hs.pos b (.inr hb)
    omega

theorem search_run (hs : Heap base F A s) (hb : base < bp) (hp : p ∈ insert base F) (hlt : p < bp)
    (hbetween : ∀ x ∈ insert base F, x ≤ p ∨ bp < x) {n : Nat} (hc : c ∈ insert base F)
    (hn : SortedRing.dist (insert base F) c p < n) : search bp n c s = (.ok p, s) := by
  induction n generalizing c with
  | zero => exact absurd hn (Nat.not_lt_zero _)
  | succ n ih =>
    have hiff := hs.ring.before_iff hb hp hlt hbetween hc
    rw [search, bind_of_ok (load_run (hs.access (.inl hc)))]
    by_cases hcp : c = p
    · subst hcp
      rcases hiff.2 rfl with hstop | hstop
      · rw [if_pos hstop]
        rfl
      · rw [if_pos hstop, ite_self]
        rfl
    · have hdist := hs.ring.dist_next hc hp hcp
      rw [if_neg fun hstop => hcp (hiff.1 (.inl hstop)), if_neg fun hstop => hcp (hiff.1 (.inr hstop))]
      exact ih (hs.ring.next_mem hc) (by omega)

/-- Only headers and `freep` have changed, and the blocks of `S` have kept their sizes. -/
structure Frame (S : Finset Nat) (s s' : St) : Prop where
  sz : s'.sz = s.sz
  mapped : s'.mapped = s.mapped
  got : s'.got = s.got
  refused : s'.refused = s.refused
  size : ∀ a ∈ S, s'.size a = s.size a

/-- The block `bp` is about to be linked behind `p`; its own link is set. -/
structure Linking (base : Nat) (F A : Finset Nat) (s : St) (p bp : Nat) : Prop extends Blocks base F A s where
  ring : SortedRing base (insert base F) (update (fun c => (s.hdr c).ptr) p (s.hdr bp).ptr)
  mem : p ∈ insert base F
  used : bp ∈ A
  lt : p < bp
  between : ∀ x ∈ insert base F, x ≤ p ∨ bp < x
  behind : ∀ c ∈ F, bp + 8 * s.size bp ≠ c

theorem Blocks.not_mem_insert (hs : Blocks base F A s) (hb : bp ∈ A) : bp ∉ insert base F := fun hmem => by
  rcases Finset.mem_insert.1 hmem with rfl | hF
  · exact absurd (hs.base_lt (.inr hb)) (lt_irrefl _)
  · exact hs.not_mem_used hF hb

theorem plus_eq {a n : Nat} (h : a + 8 * n < 2 ^ 32) : plus a n = a + 8 * n := Nat.mod_eq_of_lt h

theorem St.weight_setHdr_of_notMem (hb : b ∉ S) (x : Nat) : (s.setHdr b h).weight S x = s.weight S x :=
  weight_congr (fun _ hc => setHdr_size_of_ne (b := b) fun heq => hb (heq ▸ hc)) x

theorem St.weight_setHdr (hb : b ∈ S) (x : Nat) :
    (s.setHdr b h).weight S x + cov x b (s.size b) = s.weight S x + cov x b h.size := by
  have h1 := weight_erase (s := s.setHdr b h) hb x
  have h2 := weight_erase (s := s) hb x
  rw [weight_setHdr_of_notMem (Finset.notMem_erase b S), setHdr_size_self] at h1
  omega

theorem Blocks.setHdr {F' A' : Finset Nat} (hs : Blocks base F A s) (hbase : b = base → h.size = 0)
    (hpos : ∀ c, c ∈ F' ∨ c ∈ A' → 0 < (s.setHdr b h).size c)
    (hmerged : ∀ c ∈ F', ∀ d ∈ F', c + 8 * (s.setHdr b h).size c ≠ d)
    (hcover : ∀ x, (s.setHdr b h).weight F' x + (s.setHdr b h).weight A' x = s.weight F x + s.weight A x) :
    Blocks base F' A' (s.setHdr b h) where
  base_pos := hs.base_pos
  base_size := by
    by_cases hb : b = base
    · rw [← hb, St.setHdr_size_self, hbase hb]
    · rw [St.setHdr_size_of_ne (Ne.symm hb), hs.base_size]
  pos := hpos
  merged := hmerged
  cover := fun x => (hcover x).trans (hs.cover x)
  once := hs.once
  within := hs.within
  room := hs.room

theorem Blocks.withFreep (hs : Blocks base F A s) (p : Nat) : Blocks base F A { s with freep := p } :=
  ⟨hs.base_pos, hs.base_size, hs.pos, hs.merged, hs.cover, hs.once, hs.within, hs.room⟩

theorem Frame.setHdr (hb : b ∉ S) : Frame S s (s.setHdr b h) :=
  ⟨rfl, rfl, rfl, rfl, fun _ ha => St.setHdr_size_of_ne fun heq => hb (heq ▸ ha)⟩

theorem Heap.joinNext {n : Nat} (hs : Heap base F A s) (hb : bp ∈ A) (hp : p ∈ insert base F) (hlt : p < bp)
    (hbetween : ∀ x ∈ insert base F, x ≤ p ∨ bp < x) (hn : (s.hdr p).ptr = n) (hjoin : bp + 8 * s.size bp = n)
    (hnF : n ∈ F) :
    Linking base (F.erase n) A (s.setHdr bp ⟨(s.hdr n).ptr, s.size bp + s.size n⟩) p bp := by
  have hnot := hs.not_mem_insert hb
  have hbF : bp ∉ F := fun hF => hnot (Finset.mem_insert_of_mem hF)
  have hpos := hs.pos bp (.inr hb)
  have hbl := hs.base_lt (.inr hb)
  have hring := hs.ring.erase hp hn (by omega)
  rw [Finset.erase_insert_of_ne (by omega : base ≠ n)] at hring
  have hsub : insert base (F.erase n) ⊆ insert base F := Finset.insert_subset_insert _ (Finset.erase_subset _ _)
  have hother : ∀ c ∈ F.erase n, (s.setHdr bp ⟨(s.hdr n).ptr, s.size bp + s.size n⟩).size c = s.size c :=
    fun c hc => St.setHdr_size_of_ne fun heq => hbF (heq ▸ Finset.mem_of_mem_erase hc)
  refine ⟨hs.toBlocks.setHdr (fun heq => absurd heq hbl.ne') ?_ ?_ fun x => ?_, ?_, ?_, hb, hlt, ?_, ?_⟩
  · intro c hc
    by_cases hcb : c = bp
    · subst hcb
      rw [St.setHdr_size_self]
      exact Nat.add_pos_left hpos _
    · rw [St.setHdr_size_of_ne hcb]
      exact hs.pos c (hc.imp_left Finset.mem_of_mem_erase)
  · intro c hc d hd
    rw [hother c hc]
    exact hs.merged c (Finset.mem_of_mem_erase hc) d (Finset.mem_of_mem_erase hd)
  · have h1 := St.weight_setHdr (s := s) (h := ⟨(s.hdr n).ptr, s.size bp + s.size n⟩) hb x
    have h2 := St.weight_erase (s := s) hnF x
    have h3 := cov_add x bp (s.size bp) (s.size n)
    rw [St.weight_setHdr_of_notMem fun hF => hbF (Finset.mem_of_mem_erase hF)]
    rw [hjoin] at h3
    dsimp only at h1
    omega
  · refine hring.congr fun c hc => ?_
    have hcb : c ≠ bp := fun heq => hnot (heq ▸ hsub hc)
    rw [St.setHdr_ptr, St.setHdr_hdr, update_self]
    by_cases hcp : c = p
    · rw [hcp, update_self, update_self]
    · rw [update_of_ne hcp, update_of_ne hcp, update_of_ne hcb]
  · refine Finset.mem_insert.2 ((Finset.mem_insert.1 hp).imp_right fun hF => Finset.mem_erase.2 ⟨?_, hF⟩)
    omega
  · exact fun x hx => hbetween x (hsub hx)
  · intro c hc
    rw [St.setHdr_size_self]
    have := hs.merged n hnF c (Finset.mem_of_mem_erase hc)
    dsimp only
    omega

theorem Heap.linkNext (hs : Heap base F A s) (hb : bp ∈ A) (hp : p ∈ insert base F) (hlt : p < bp)
    (hbetween : ∀ x ∈ insert base F, x ≤ p ∨ bp < x) (hjoin : bp + 8 * s.size bp ≠ (s.hdr p).ptr) :
    Linking base F A (s.setHdr bp ⟨(s.hdr p).ptr, s.size bp⟩) p bp := by
  have hnot := hs.not_mem_insert hb
  have hsize := St.setHdr_size_link (s := s) (b := bp) (s.hdr p).ptr
  refine ⟨hs.toBlocks.setHdr (fun heq => absurd heq (hs.base_lt (.inr hb)).ne') ?_ ?_ fun x => ?_, ?_, hp, hb, hlt,
    hbetween, ?_⟩
  · intro c hc
    rw [hsize]
    exact hs.pos c hc
  · intro c hc d hd
    rw [hsize]
    exact hs.merged c hc d hd
  · rw [St.weight_congr fun c _ => hsize c, St.weight_congr fun c _ => hsize c]
  · refine hs.ring.congr fun c hc => ?_
    have hcb : c ≠ bp := fun heq => hnot (heq ▸ hc)
    rw [St.setHdr_ptr, St.setHdr_hdr, update_self]
    by_cases hcp : c = p
    · rw [hcp, update_self]
    · rw [update_of_ne hcp, update_of_ne hcb]
  · intro c hc heq
    rw [hsize] at heq
    have hpos := hs.pos bp (.inr hb)
    have hcR := Finset.mem_insert_of_mem (b := base) hc
    -- the next free block is not before the end of `bp`
    have hnext : (s.hdr p).ptr ≤ c := (hs.ring.le_or_next_le hp hcR).resolve_left (by omega)
    rcases hs.ring.next p hp with ⟨hd, hgt, -⟩ | ⟨-, hmax⟩
    · have hnF : (s.hdr p).ptr ∈ F := Finset.mem_of_mem_insert_of_ne hd fun hbase => by
        have := hs.ring.base_le p hp
        omega
      have := hs.disjoint (.inr hb) (.inl hnF) ((hbetween _ hd).resolve_left hgt.not_ge)
      omega
    · have := hmax c hcR
      omega

theorem joinNext_run (hs : Heap base F A s) (hb : bp ∈ A) (hp : p ∈ insert base F) (hlt : p < bp)
    (hbetween : ∀ x ∈ insert base F, x ≤ p ∨ bp < x) :
    ∃ F' s', joinNext bp p s = (.ok (), s') ∧ Linking base F' A s' p bp ∧ Frame (A.erase bp) s s' ∧
      s'.freep = s.freep ∧ s.size bp ≤ s'.size bp := by
  have hbp := hs.bounds (.inr hb)
  have hroom := hs.room
  have hends : plus bp (s.hdr bp).size = bp + 8 * s.size bp := plus_eq (by show bp + 8 * s.size bp < _; omega)
  have hnR : (s.hdr p).ptr ∈ insert base F := hs.ring.next_mem hp
  rw [joinNext, bind_of_ok (load_run (hs.access (.inr hb))), bind_of_ok (load_run (hs.access (.inl hp)))]
  by_cases hjoin : bp + 8 * s.size bp = (s.hdr p).ptr
  · have hnF : (s.hdr p).ptr ∈ F := Finset.mem_of_mem_insert_of_ne hnR (by omega)
    have hnbd := hs.bounds (.inl hnF)
    have hsum : ((s.hdr bp).size + (s.hdr (s.hdr p).ptr).size) % 2 ^ 32 = s.size bp + s.size (s.hdr p).ptr :=
      Nat.mod_eq_of_lt (by show s.size bp + s.size (s.hdr p).ptr < _; omega)
    rw [if_pos (by rw [hends, hjoin]), bind_of_ok (load_run (hs.access (.inl hnR))),
      setBoth_run (hs.access (.inr hb)), hsum]
    refine ⟨_, _, rfl, hs.joinNext hb hp hlt hbetween rfl hjoin hnF, .setHdr (Finset.notMem_erase _ _), rfl, ?_⟩
    rw [St.setHdr_size_self]
    exact Nat.le_add_right _ _
  · rw [if_neg (by rw [hends]; exact hjoin), setPtr_run (hs.access (.inr hb))]
    refine ⟨_, _, rfl, hs.linkNext hb hp hlt hbetween hjoin, .setHdr (Finset.notMem_erase _ _), rfl, ?_⟩
    rw [St.setHdr_size_self]

theorem Linking.joinPrev (hl : Linking base F A s p bp) (hpF : p ∈ F) (hjoin : p + 8 * s.size p = bp) :
    Blocks base F (A.erase bp) (s.setHdr p ⟨(s.hdr bp).ptr, s.size p + s.size bp⟩) ∧
      SortedRing base (insert base F)
        (fun c => ((s.setHdr p ⟨(s.hdr bp).ptr, s.size p + s.size bp⟩).hdr c).ptr) := by
  have hpA : p ∉ A := hl.not_mem_used hpF
  refine ⟨hl.toBlocks.setHdr (fun heq => absurd heq (hl.base_lt (.inl hpF)).ne') ?_ ?_ fun x => ?_, ?_⟩
  · intro c hc
    by_cases hcp : c = p
    · subst hcp
      rw [St.setHdr_size_self]
      exact Nat.add_pos_left (hl.pos c (.inl hpF)) _
    · rw [St.setHdr_size_of_ne hcp]
      exact hl.pos c (hc.imp_right Finset.mem_of_mem_erase)
  · intro c hc d hd
    by_cases hcp : c = p
    · subst hcp
      rw [St.setHdr_size_self]
      have := hl.behind d hd
      dsimp only
      omega
    · rw [St.setHdr_size_of_ne hcp]
      exact hl.merged c hc d hd
  · have h1 := St.weight_setHdr (s := s) (h := ⟨(s.hdr bp).ptr, s.size p + s.size bp⟩) hpF x
    have h2 := St.weight_erase (s := s) hl.used x
    have h3 := cov_add x p (s.size p) (s.size bp)
    rw [St.weight_setHdr_of_notMem fun hA => hpA (Finset.mem_of_mem_erase hA)]
    rw [hjoin] at h3
    dsimp only at h1
    omega
  · rw [St.setHdr_ptr]
    exact hl.ring

theorem Linking.linkPrev (hl : Linking base F A s p bp) (hjoin : p + 8 * s.size p ≠ bp) :
    Blocks base (insert bp F) (A.erase bp) (s.setHdr p ⟨bp, s.size p⟩) ∧
      SortedRing base (insert base (insert bp F)) (fun c => ((s.setHdr p ⟨bp, s.size p⟩).hdr c).ptr) := by
  have hbF : bp ∉ F := fun hF => hl.not_mem_used hF hl.used
  have hsize := St.setHdr_size_link (s := s) (b := p) bp
  refine ⟨hl.toBlocks.setHdr (fun heq => ?_) ?_ ?_ fun x => ?_, ?_⟩
  · subst heq
    exact hl.base_size
  · rintro c (hc | hc)
    · rw [hsize]
      rcases Finset.mem_insert.1 hc with rfl | hc
      · exact hl.pos c (.inr hl.used)
      · exact hl.pos c (.inl hc)
    · rw [hsize]
      exact hl.pos c (.inr (Finset.mem_of_mem_erase hc))
  · intro c hc d hd
    rw [hsize]
    rcases Finset.mem_insert.1 hc with hcb | hcF <;> rcases Finset.mem_insert.1 hd with hdb | hdF
    · have := hl.pos bp (.inr hl.used)
      rw [hcb, hdb]
      omega
    · exact hcb ▸ hl.behind d hdF
    · rw [hdb]
      rcases hl.between c (Finset.mem_insert_of_mem hcF) with hle | hgt
      · rcases hle.eq_or_lt with rfl | hlt
        · exact hjoin
        · have hpF : p ∈ F := Finset.mem_of_mem_insert_of_ne hl.mem fun heq => by
            have := hl.base_lt (.inl hcF)
            omega
          have h1 := hl.disjoint (.inl hcF) (.inl hpF) hlt
          have h2 := hl.lt
          omega
      · have := hl.pos c (.inl hcF)
        omega
    · exact hl.merged c hcF d hdF
  · have h1 := St.weight_insert (s := s) hbF x
    have h2 := St.weight_erase (s := s) hl.used x
    rw [St.weight_congr fun c _ => hsize c, St.weight_congr fun c _ => hsize c]
    omega
  · have hring := hl.ring.insert hl.mem hl.lt hl.between
    rw [Finset.insert_comm] at hring
    rw [St.setHdr_ptr]
    refine hring.congr fun c _ => ?_
    by_cases hcp : c = p
    · rw [hcp, update_self, update_self]
    · rw [update_of_ne hcp, update_of_ne hcp, update_self]
      by_cases hcb : c = bp
      · rw [hcb, update_self]
      · rw [update_of_ne hcb, update_of_ne hcp]

theorem joinPrev_run (hl : Linking base F A s p bp) :
    ∃ F' s', joinPrev bp p s = (.ok (), s') ∧ Blocks base F' (A.erase bp) s' ∧
      SortedRing base (insert base F') (fun c => (s'.hdr c).ptr) ∧ p ∈ insert base F' ∧ Frame (A.erase bp) s s' ∧
      ∃ c ∈ F', s.size bp ≤ s'.size c := by
  have hroom := hl.room
  have hacc := hl.access (.inl hl.mem)
  have hpend : p + 8 * s.size p < 2 ^ 32 := by
    rcases Finset.mem_insert.1 hl.mem with hpb | hpF
    · rw [hpb, hl.base_size]
      omega
    · have := hl.bounds (.inl hpF)
      omega
  have hends : plus p (s.hdr p).size = p + 8 * s.size p := plus_eq hpend
  have hpA : p ∉ A.erase bp := fun hA => hl.not_mem_insert (Finset.mem_of_mem_erase hA) hl.mem
  rw [joinPrev, bind_of_ok (load_run hacc), bind_of_ok (load_run (hl.access (.inr hl.used)))]
  by_cases hjoin : p + 8 * s.size p = bp
  · have hpF : p ∈ F := Finset.mem_of_mem_insert_of_ne hl.mem fun hpb => by
      have h1 := hl.base_size
      have h2 := hl.lt
      subst hpb
      omega
    have hbp := hl.bounds (.inr hl.used)
    have hsum : ((s.hdr p).size + (s.hdr bp).size) % 2 ^ 32 = s.size p + s.size bp :=
      Nat.mod_eq_of_lt (by show s.size p + s.size bp < _; omega)
    rw [if_pos (by rw [hends, hjoin]), setBoth_run hacc, hsum]
    obtain ⟨hbl, hring⟩ := hl.joinPrev hpF hjoin
    refine ⟨_, _, rfl, hbl, hring, hl.mem, .setHdr hpA, p, hpF, ?_⟩
    rw [St.setHdr_size_self]
    exact Nat.le_add_left _ _
  · rw [if_neg (by rw [hends]; exact hjoin), setPtr_run hacc]
    obtain ⟨hbl, hring⟩ := hl.linkPrev hjoin
    refine ⟨_, _, rfl, hbl, hring, ?_, .setHdr hpA, bp, Finset.mem_insert_self _ _, ?_⟩
    · exact Finset.insert_subset_insert _ (Finset.subset_insert _ _) hl.mem
    · rw [St.setHdr_size_of_ne hl.lt.ne']

theorem Frame.trans {s₁ : St} (h₁ : Frame S s s₁) (h₂ : Frame S s₁ s') : Frame S s s' :=
  ⟨h₂.sz.trans h₁.sz, h₂.mapped.trans h₁.mapped, h₂.got.trans h₁.got, h₂.refused.trans h₁.refused,
    fun a ha => (h₂.size a ha).trans (h₁.size a ha)⟩

/-- A block in use is given back, and some free block is now at least as large. -/
theorem free_run (hs : Heap base F A s) (hb : bp ∈ A) :
    ∃ F' s', free (bp + 8) s = (.ok (), s') ∧ Heap base F' (A.erase bp) s' ∧ Frame (A.erase bp) s s' ∧
      ∃ c ∈ F', s.size bp ≤ s'.size c := by
  have hbp := hs.bounds (.inr hb)
  have hroom := hs.room
  have hsub : sub32 (bp + 8) 8 = bp := by
    have hpos := hs.pos bp (.inr hb)
    simp only [sub32]
    omega
  obtain ⟨p, hp, hlt, hbetween⟩ := hs.ring.exists_before (hs.base_lt (.inr hb)) (hs.not_mem_insert hb)
  have hfuel : SortedRing.dist (insert base F) s.freep p < maxRounds := by
    have h1 := SortedRing.dist_lt (R := insert base F) (c := s.freep) hp
    have h2 := hs.card_le
    rw [maxRounds]
    omega
  obtain ⟨F1, s1, hrun1, hl, hframe1, hfreep, hsize1⟩ := joinNext_run hs hb hp hlt hbetween
  obtain ⟨F2, s2, hrun2, hbl, hring, hmem, hframe2, c, hc, hsize2⟩ := joinPrev_run hl
  refine ⟨F2, { s2 with freep := p }, ?_, ⟨hbl.withFreep p, hring, hmem⟩, ?_, c, hc, hsize1.trans hsize2⟩
  · rw [free, hsub]
    show (search bp maxRounds s.freep >>= _) s = _
    rw [bind_of_ok (search_run hs (hs.base_lt (.inr hb)) hp hlt hbetween hs.freep hfuel), bind_of_ok hrun1,
      bind_of_ok hrun2]
    rfl
  · exact (hframe1.trans hframe2).trans ⟨rfl, rfl, rfl, rfl, fun _ _ => rfl⟩

end Xv6.Umalloc
