import Xv6.ProgramRun

/-!
# What `exec` leaves behind

The new program finds its segments and its stack: `exec_all_or_nothing` says that a call which fails has
changed nothing and one that succeeds has put the bytes of the file where its headers say, and
`exec_stack_decodes` that the stack holds the arguments in the form in which `main` expects them.
-/

namespace Xv6.Program

open Exec Vm

variable {L : Layout} {k₀ : Kmem} {ram₀ : Ram} {old pd : PageDir} {s : Kernel} {fs : Fs} {ip cwd : Slot}
  {rd : UInt32 → UInt32 → Option (List UInt8)} {phs : List Proghdr} {sz esp : Nat} {path : List UInt8}
  {argv : List (List UInt8)} {copyout : PageDir → Nat → List UInt8 → Exec Ram Fault Int} {F : Prop}

/-! ### Reading the stack -/

section Decode

variable {ld : Nat → Option UInt8} {va w : Nat} {ws : List Nat}

/-- The word at `va`, where `ld` says which byte is read at an address. -/
def word (ld : Nat → Option UInt8) (va : Nat) : Option Nat :=
  (ld va).bind fun b₀ => (ld (va + 1)).bind fun b₁ => (ld (va + 2)).bind fun b₂ => (ld (va + 3)).map fun b₃ =>
    Bytes.leNat (cstr [b₀, b₁, b₂, b₃]) 0 4

theorem word_eq (h : ∀ j, j < 4 → ld (va + j) = some (Bytes.leByte w j)) (hw : w < 2 ^ 32) : word ld va = some w := by
  have hnat : Bytes.leNat (cstr [Bytes.leByte w 0, Bytes.leByte w 1, Bytes.leByte w 2, Bytes.leByte w 3]) 0 4 = w := by
    refine (Bytes.leNat_congr fun i _ hi => ?_).trans ((Bytes.leNat_leByte w 0 4).trans (Nat.mod_eq_of_lt hw))
    obtain rfl | rfl | rfl | rfl : i = 0 ∨ i = 1 ∨ i = 2 ∨ i = 3 := by omega
    all_goals rfl
  have h0 := h 0 (by decide)
  rw [Nat.add_zero] at h0
  rw [word, h0, h 1 (by decide), h 2 (by decide), h 3 (by decide)]
  exact congrArg some hnat

theorem words_getElem? (ws : List Nat) (k : Nat) {j : Nat} (hj : j < 4) :
    (words ws)[4 * k + j]? = ws[k]?.map (Bytes.leByte · j) := by
  induction ws generalizing k with
  | nil => rfl
  | cons w ws ih =>
    have hcons : words (w :: ws) = (List.range 4).map (Bytes.leByte w) ++ words ws := rfl
    have hlen : ((List.range 4).map (Bytes.leByte w)).length = 4 := rfl
    rw [hcons]
    rcases k with _ | k
    · rw [List.getElem?_append_left (by rw [hlen]; omega), List.getElem?_map, List.getElem?_range (by omega)]
      show some (Bytes.leByte w (4 * 0 + j)) = _
      rw [Nat.mul_zero, Nat.zero_add]
      rfl
    · rw [List.getElem?_append_right (by rw [hlen]; omega), hlen, show 4 * (k + 1) + j - 4 = 4 * k + j by omega, ih k]
      rfl

theorem word_of_stored {a : Nat} {ram : Ram} (h : Stored pd ram (a, words ws)) {k : Nat} (hk : ws[k]? = some w)
    (hw : w < 2 ^ 32) : word (load pd ram) (a + 4 * k) = some w := by
  refine word_eq (fun j hj => ?_) hw
  have hget : (words ws)[4 * k + j]? = some (Bytes.leByte w j) := by rw [words_getElem? ws k hj, hk, Option.map_some]
  have hlt := (List.getElem?_eq_some_iff.1 hget).1
  rw [Nat.add_assoc, h (4 * k + j) hlt]
  exact hget

/-- The addresses and sizes of what is on the stack: return address, `argc`, `argv`, the array and the strings. -/
def objects (esp argvp : Nat) (argv : List (List UInt8)) (ptrs : List Nat) : List (Nat × Nat) :=
  (esp, 4) :: (esp + 4, 4) :: (esp + 8, 4) :: (argvp, 4 * (argv.length + 1)) ::
    List.zipWith (fun p arg => (p, arg.length + 1)) ptrs argv

/-- The stack is that of a call of `main` with the arguments `argv`, and lies in the page below `sz`. -/
structure Decodes (ld : Nat → Option UInt8) (sz esp : Nat) (argv : List (List UInt8)) (argvp : Nat) (ptrs : List Nat) :
    Prop where
  ret : word ld esp = some 0xffffffff
  argc : word ld (esp + 4) = some argv.length
  pointer : word ld (esp + 8) = some argvp
  length : ptrs.length = argv.length
  array : ∀ i p, ptrs[i]? = some p → word ld (argvp + 4 * i) = some p
  null : word ld (argvp + 4 * argv.length) = some 0
  strings : ∀ (i p : Nat) (arg : List UInt8), ptrs[i]? = some p → argv[i]? = some arg →
    ∀ j, j < arg.length + 1 → ld (p + j) = (arg ++ [0])[j]?
  align : esp % 4 = 0 ∧ ∀ p ∈ ptrs, p % 4 = 0
  disjoint : (objects esp argvp argv ptrs).Pairwise fun o o' => o.1 + o.2 ≤ o'.1 ∨ o'.1 + o'.2 ≤ o.1
  within : ∀ o ∈ objects esp argvp argv ptrs, sz - PGSIZE ≤ o.1 ∧ o.1 + o.2 ≤ sz

theorem zipWith_objs {objs : List (Nat × List UInt8)} (h : objs.map (·.2) = argv.map (· ++ [0])) :
    List.zipWith (fun p arg => (p, arg.length + 1)) (objs.map (·.1)) argv = objs.map fun o => (o.1, o.2.length) := by
  induction objs generalizing argv with
  | nil => rfl
  | cons o objs ih =>
    rcases argv with _ | ⟨arg, argv⟩
    · cases h
    · obtain ⟨harg, hrest⟩ := List.cons.inj h
      have hlen : o.2.length = arg.length + 1 := by
        rw [show o.2 = arg ++ [0] from harg, List.length_append, List.length_singleton]
      rw [List.map_cons, List.zipWith_cons_cons, ih hrest, List.map_cons, hlen]

theorem OnStack.decodes {ram₁ ram : Ram} {objs : List (Nat × List UInt8)} (hd : StackDir pd sz)
    (h : OnStack pd sz ram₁ argv esp objs ram) : Decodes (load pd ram) sz esp argv (esp + 12) (objs.map (·.1)) := by
  have hlen : argv.length = objs.length := by
    have := congrArg List.length h.args
    rwa [List.length_map, List.length_map, eq_comm] at this
  have hp := h.pushed
  have hlow := hd.low
  simp only [Vm.KERNBASE] at hlow
  obtain ⟨happ, -, hlast⟩ := List.pairwise_append.1 hp.apart
  have hmem : (esp, words (ustack esp (objs.map (·.1)))) ∈ objs ++ [(esp, words (ustack esp (objs.map (·.1))))] :=
    List.mem_append_right _ (List.mem_singleton_self _)
  have hsize : (words (ustack esp (objs.map (·.1)))).length = 4 * argv.length + 16 := by
    rw [length_ustack, List.length_map, ← hlen]
    omega
  have hbase := hp.within _ hmem
  dsimp only at hbase
  rw [hsize] at hbase
  have hobj : ∀ o ∈ objs, esp + (4 * argv.length + 16) ≤ o.1 ∧ o.1 + o.2.length ≤ sz ∧ o.1 % 4 = 0 := fun o ho => by
    have := hlast o ho _ (List.mem_singleton_self _)
    dsimp only at this
    rw [hsize] at this
    exact ⟨this, (hp.within o (List.mem_append_left _ ho)).2⟩
  have hword : ∀ k w, (ustack esp (objs.map (·.1)))[k]? = some w → w < 2 ^ 32 →
      word (load pd ram) (esp + 4 * k) = some w :=
    fun k w => word_of_stored (hp.stored _ hmem)
  have hlo := hp.lo
  refine ⟨hword 0 _ rfl (by decide), hword 1 _ ?_ (by omega), hword 2 _ rfl (by omega), ?_, fun i p hi => ?_, ?_,
    fun i p arg hi harg j hj => ?_, ⟨hbase.2.2, fun p hpm => ?_⟩, ?_, fun o ho => ?_⟩
  · rw [hlen, ← List.length_map (·.1)]
    rfl
  · rw [List.length_map, hlen]
  · obtain ⟨o, ho, rfl⟩ := List.mem_map.1 (List.mem_of_getElem? hi)
    rw [show esp + 12 + 4 * i = esp + 4 * (i + 3) by omega]
    refine hword (i + 3) _ ?_ (by have := hobj o ho; omega)
    show (objs.map (·.1) ++ [0])[i]? = _
    rw [List.getElem?_append_left (List.getElem?_eq_some_iff.1 hi).1, hi]
  · rw [show esp + 12 + 4 * argv.length = esp + 4 * (argv.length + 3) by omega]
    refine hword (argv.length + 3) _ ?_ (by decide)
    show (objs.map (·.1) ++ [0])[argv.length]? = _
    rw [List.getElem?_append_right (by rw [List.length_map, hlen]), List.length_map, hlen, Nat.sub_self]
    rfl
  · obtain ⟨o, ho, rfl⟩ := Option.map_eq_some_iff.1 ((List.getElem?_map ..).symm.trans hi)
    have hsnd : o.2 = arg ++ [0] := by
      have := congrArg (fun l => l[i]?) h.args
      rw [List.getElem?_map, List.getElem?_map, ho, harg] at this
      exact Option.some.inj this
    rw [← hsnd]
    refine hp.stored o (List.mem_append_left _ (List.mem_of_getElem? ho)) j ?_
    rw [hsnd, List.length_append, List.length_singleton]
    exact hj
  · obtain ⟨o, ho, rfl⟩ := List.mem_map.1 hpm
    exact (hobj o ho).2.2
  · unfold objects
    rw [zipWith_objs h.args]
    have hstr : ∀ o ∈ objs.map fun o => (o.1, o.2.length), esp + (4 * argv.length + 16) ≤ o.1 := fun o ho => by
      obtain ⟨o', ho', rfl⟩ := List.mem_map.1 ho
      exact (hobj o' ho').1
    simp only [List.pairwise_cons, List.mem_cons, forall_eq_or_imp]
    refine ⟨⟨.inl le_rfl, .inl (by omega), .inl (by omega), fun o ho => .inl (by have := hstr o ho; omega)⟩,
      ⟨.inl le_rfl, .inl (by omega), fun o ho => .inl (by have := hstr o ho; omega)⟩,
      ⟨.inl le_rfl, fun o ho => .inl (by have := hstr o ho; omega)⟩,
      fun o ho => .inl (by have := hstr o ho; omega), List.pairwise_map.2 (happ.imp fun h => .inr h)⟩
  · unfold objects at ho
    rw [zipWith_objs h.args] at ho
    simp only [List.mem_cons] at ho
    rcases ho with rfl | rfl | rfl | rfl | ho
    · exact ⟨hlo, by dsimp only; omega⟩
    · exact ⟨by dsimp only; omega, by dsimp only; omega⟩
    · exact ⟨by dsimp only; omega, by dsimp only; omega⟩
    · exact ⟨by dsimp only; omega, by dsimp only; omega⟩
    · obtain ⟨o', ho', rfl⟩ := List.mem_map.1 ho
      have := hobj o' ho'
      exact ⟨by dsimp only; omega, this.2.1⟩

end Decode

/-! ### The call -/

theorem load_congr {ram ram' : Ram} (h : ∀ f, 0 < pd.count f → ram' f = ram f) : load pd ram' = load pd ram := by
  funext va
  rcases Nat.lt_or_ge va Vm.KERNBASE with hva | hva
  · rw [load_eq_byteAt hva, load_eq_byteAt hva]
    rcases hat : pd.byteAt va with _ | x
    · rfl
    · obtain ⟨e, he, hpage, -⟩ := PageDir.get_of_byteAt hva hat
      rw [Option.map_some, Option.map_some, h x.1 (hpage ▸ PageDir.count_get hva he)]
  · rw [load_of_ge hva, load_of_ge hva]

theorem commit_meets {entry : Nat} (hk : Fresh L k₀ s.proc.pgdir) (hm : Managed L k₀ s.proc.pgdir)
    (ho : Owns k₀ ram₀ pd s.phys) :
    Meets (commit L path entry sz esp pd) s (fun _ s' => s'.fs = s.fs ∧
      s'.proc = ⟨pd, sz, entry, esp, safestrcpy s.proc.name (lastElem path)⟩ ∧
      (∀ f, s'.phys.kmem.count f + pd.count f = k₀.count f + s.proc.pgdir.count f) ∧
      load pd s'.phys.ram = load pd s.phys.ram) fun _ _ => False := by
  unfold commit
  refine .get_bind (.modify_bind ?_)
  have hmanaged : Managed L s.phys.kmem s.proc.pgdir := fun f hpos => hm f (by have := ho.pages f; omega)
  have hfree := onRam_meets (freevm_meets s.phys.kmem s.proc.pgdir) fun _ _ h => h hmanaged
  refine (onPhys_meets (s := ⟨s.fs, s.phys, ⟨pd, sz, entry, esp, safestrcpy s.proc.name (lastElem path)⟩⟩) hfree).mono ?_
    fun _ _ => id
  rintro _ s' ⟨hkeep, hcount, hram⟩
  have hsum : ∀ f, s'.phys.kmem.count f = s.phys.kmem.count f + s.proc.pgdir.count f := fun f => (hcount f).1
  refine ⟨hkeep.fs, hkeep.proc, fun f => ?_, load_congr fun f hpos => hram f ?_⟩
  all_goals
    have h1 := hsum f
    have h2 := ho.pages f
    have h3 := hk.once f
    omega

/-- What `exec` needs of the system and of the calling process. -/
structure Ready (L : Layout) (s : Kernel) (cwd : Slot) : Prop where
  tree : s.fs.Tree
  cwd : 0 < (s.fs.icache cwd).ref
  idle : s.fs.outstanding = 0 → s.fs.lh = []
  fresh : Fresh L s.phys.kmem s.proc.pgdir
  managed : Managed L s.phys.kmem s.proc.pgdir

/-- The process is as it was, all pages are free again, and the file is closed. -/
structure Unchanged (s s' : Kernel) : Prop where
  proc : s'.proc = s.proc
  phys : Restored s.phys.kmem s.phys.ram s'.phys
  fs : Fs.Calm s.fs none 0 s'.fs

/-- The process runs the program in inode `i`. -/
structure Replaced (s : Kernel) (path : List UInt8) (argv : List (List UInt8)) (i : Nat) (s' : Kernel) : Prop where
  fs : Fs.Calm s.fs none 0 s'.fs
  live : s.fs.view.Live s.fs.sb i
  pages : ∀ f, s'.phys.kmem.count f + s'.proc.pgdir.count f = s.phys.kmem.count f + s.proc.pgdir.count f
  eip : s'.proc.eip = (elfhdr (s.fs.contents i)).entry
  name : s'.proc.name = safestrcpy s.proc.name (lastElem path)
  dir : StackDir s'.proc.pgdir s'.proc.sz
  fits : ∀ ph ∈ fileSegments (s.fs.contents i), ph.vaddr + ph.filesz ≤ s'.proc.sz - 2 * PGSIZE
  full : ∀ ph ∈ fileSegments (s.fs.contents i), FullyRead (stored (s.fs.contents i)) ph.off ph.filesz
  image : ∀ va, va < s'.proc.sz - 2 * PGSIZE →
    load s'.proc.pgdir s'.phys.ram va = some (loaded (s.fs.contents i) (fileSegments (s.fs.contents i)) va)
  stack : ∃ argvp ptrs, Decodes (load s'.proc.pgdir s'.phys.ram) s'.proc.sz s'.proc.esp argv argvp ptrs

def Stopped (s : Kernel) (F : Prop) (e : Halt) (s' : Kernel) : Prop :=
  (∃ e', e = .fs e' ∧ Fs.NoInodes s.fs e' s'.fs) ∨ Faulted F e s'

theorem exec_meets (hL : KmapOk L) (hco : Honest copyout F) (hs : Ready L s cwd) (hnul : ∀ c ∈ path, c ≠ 0) :
    Meets (exec L copyout cwd path argv) s (fun r s' => r = -1 ∧ Unchanged s s' ∨
      r = 0 ∧ ∃ i, s.fs.view.walk (s.fs.start cwd path) (elements path) = some i ∧ Replaced s path argv i s')
      (Stopped s F) := by
  have hbegin : onFs beginOp s = (.ok (), { s with fs := s.fs.setLog (s.fs.outstanding + 1) s.fs.lh }) := rfl
  have ht : (s.fs.setLog (s.fs.outstanding + 1) s.fs.lh).Tree := hs.tree.setLog
  unfold exec
  refine .ok_bind hbegin (.bind (P := fun r s1 => Keeps { s with fs := s1.fs } s1 ∧ s1.phys = s.phys ∧
    r.map (fun ip => (s1.fs.icache ip).inum) = s.fs.view.walk (s.fs.start cwd path) (elements path) ∧
    Fs.Calm (s.fs.setLog (s.fs.outstanding + 1) s.fs.lh) none (Fs.held r) s1.fs) ?_ ?_)
  · unfold onFs
    refine Meets.zoom (Fs.namei_calm ht hs.cwd hnul) ?_ ?_
    · exact fun r fs h => ⟨⟨rfl, rfl⟩, rfl, h⟩
    · exact fun e fs h => .inl ⟨e, rfl, h⟩
  rintro r s1 ⟨hkeep1, hphys1, hwalk, hcalm1⟩
  rcases r with _ | ip
  · obtain ⟨fs2, hrun, hcalm2, -⟩ := hcalm1.endOp hs.idle
    have hend : onFs endOp s1 = (.ok (), { s1 with fs := fs2 }) := zoom_ok hrun
    refine .ok_bind hend (.pure (.inl ⟨rfl, hkeep1.proc, ?_, hcalm2⟩))
    show Restored _ _ s1.phys
    rw [hphys1]
    exact ⟨fun _ => rfl, fun _ _ => rfl⟩
  obtain ⟨fs2, hrun, hcalm2, hvalid, hinum⟩ := hcalm1.ilock ht (Multiset.mem_singleton_self ip)
  have hlock : onFs (ilock ip) s1 = (.ok (), { s1 with fs := fs2 }) := zoom_ok hrun
  obtain ⟨i, hi⟩ : ∃ i, i = (fs2.icache ip).inum := ⟨_, rfl⟩
  have hfound : s.fs.view.walk (s.fs.start cwd path) (elements path) = some i := by
    rw [← hwalk, hi, hinum]
    rfl
  have hlive : s.fs.view.Live s.fs.sb i := hi ▸ (hcalm2.kept ip (Multiset.mem_singleton_self ip)).live
  have hread : ∀ off n, readi ip off n fs2 = (.ok (s.fs.contents i off n), fs2) := fun off n => by
    rw [hcalm2.readi ht (Multiset.mem_singleton_self ip) hvalid off n, hi]
    rfl
  refine .ok_bind hlock ?_
  have hload := loadProgram_meets (s := { s1 with fs := fs2 }) hL (hphys1 ▸ hs.fresh) hs.tree hs.idle hcalm2 hread
  refine .bind hload.of_safe ?_
  rintro r s3 ⟨hproc3, hcalm3, hres⟩
  rcases r with _ | ⟨entry, sz, pd⟩
  · exact .pure (.inl ⟨rfl, hproc3.trans hkeep1.proc, hphys1 ▸ hres.failed rfl, hcalm3⟩)
  have hentry : entry = _ := hres.entry _ rfl
  have hlaid : Laid L s1.phys.kmem s1.phys.ram _ _ sz pd s3.phys := hres.laid _ rfl
  rw [hphys1] at hlaid
  dsimp only
  refine .bind ((makeStack_meets hco hs.fresh hlaid).mono (fun _ _ => id) fun _ _ => .inr) ?_
  rintro ⟨_ | ⟨sz', esp⟩, pd'⟩ s4 ⟨hkeep4, howns, hstack⟩
  · have hgiven : Given s.phys.kmem s.phys.ram (some pd') s4.phys := howns
    have hclean : Meets (cleanupexec L (some pd') none) s4 (fun _ s' => Keeps s4 s' ∧ Restored s.phys.kmem s.phys.ram
        s'.phys) (Stopped s F) := .bind (freeNew_meets hs.fresh hgiven).of_safe fun _ _ h => .pure h
    refine .bind hclean ?_
    rintro _ s5 ⟨hkeep5, hrest⟩
    have hk := hkeep4.trans hkeep5
    exact .pure (.inl ⟨rfl, (hk.proc.trans hproc3).trans hkeep1.proc, hrest, hk.fs ▸ hcalm3⟩)
  · obtain ⟨hsz, hdir, himage, ram1, objs, hon⟩ := hstack sz' esp rfl
    have hup := (pgRoundUp_eq sz hlaid.size).2.2
    have hproc : s4.proc = s.proc := (hkeep4.proc.trans hproc3).trans hkeep1.proc
    refine .bind (commit_meets (hproc ▸ hs.fresh) (hproc ▸ hs.managed) howns).of_safe ?_
    rintro _ s5 ⟨hfs5, hproc5, hpages5, hload5⟩
    have hlow : sz' - 2 * PGSIZE = pgRoundUp sz := by rw [hsz, Nat.add_sub_cancel]
    refine .pure (.inr ⟨rfl, i, hfound, ?_⟩)
    refine ⟨?_, hlive, fun f => ?_, ?_, ?_, ?_, fun ph hph => ?_, hlaid.full, fun va hva => ?_, ?_⟩
    · rw [hfs5, hkeep4.fs]
      exact hcalm3
    · rw [hproc5, hpages5 f, hproc]
    · rw [hproc5, hentry]
    · rw [hproc5, hproc]
    · rw [hproc5]
      exact hdir
    · rw [hproc5, hlow]
      exact (hlaid.fits ph hph).trans hup
    · rw [hproc5] at hva ⊢
      rw [hload5]
      exact himage va (hlow ▸ hva)
    · rw [hproc5]
      dsimp only
      rw [hload5]
      exact ⟨_, _, hon.decodes hdir⟩

/-! ### The bytes of the file -/

section File

variable {i off n j : Nat} (hdev : (fs.view.inode i).type ≠ T_DEV)

include hdev

theorem stored_contents (hoff : off < 2 ^ 32) (hn : n < 2 ^ 32) (hpos : 0 < n)
    (hlen : n ≤ (stored (fs.contents i) off n).length) :
    off + n ≤ (fs.view.inode i).size.toNat ∧
      ∀ k, k < n → (stored (fs.contents i) off n).getD k 0 = fs.view.byte i (off + k) := by
  have hoff' : (UInt32.ofNat off).toNat = off := UInt32.toNat_ofNat_of_lt' hoff
  have hn' : (UInt32.ofNat n).toNat = n := UInt32.toNat_ofNat_of_lt' hn
  unfold stored Fs.contents at hlen ⊢
  rw [if_neg hdev] at hlen ⊢
  split at hlen
  · exact absurd hpos (by simpa using hlen)
  · rename_i hin
    rw [if_neg hin, Option.getD_some, hoff', hn']
    rw [Option.getD_some, hoff', hn', Store.slice, List.length_map, List.length_range] at hlen
    refine ⟨by omega, fun k hk => ?_⟩
    rw [Store.slice, List.getD_eq_getElem?_getD, List.getElem?_map, List.getElem?_range (by omega)]
    rfl

/-- A segment that is read in full is the part of the file at its offset; the offsets do not wrap around. -/
theorem segByte_contents (hsize : (fs.view.inode i).size.toNat ≤ MAXFILE * BSIZE) (hoff : off < 2 ^ 32)
    (hfull : FullyRead (stored (fs.contents i)) off n) (hj : j < n) :
    off + j < (fs.view.inode i).size.toNat ∧ segByte (stored (fs.contents i)) off n j = fs.view.byte i (off + j) := by
  have hpage : ∀ j, j < n → pgRoundDown j + j % PGSIZE = j ∧ j % PGSIZE < pageLen n j ∧ pageLen n j < 2 ^ 32 := by
    intro j hj
    have hlen : pageLen n j = min (n - pgRoundDown j) PGSIZE := by
      rw [pageLen]
      split <;> omega
    rw [hlen]
    simp only [pgRoundDown, PGSIZE]
    omega
  have hread := fun j (hj : j < n) => stored_contents hdev (Nat.mod_lt (off + pgRoundDown j) (by decide)) (hpage j hj).2.2
    (by have := hpage j hj; omega) (hfull j hj)
  -- the page before the end of the address space would be far behind the end of the file
  have hwrap : off + pgRoundDown j < 2 ^ 32 := by
    by_contra hge
    have hle : (2 ^ 32 - 1 - off) / PGSIZE * PGSIZE < n := by
      have := hpage j hj
      simp only [PGSIZE] at *
      omega
    have hend := (hread _ hle).1
    simp only [pgRoundDown, PGSIZE, MAXFILE, NDIRECT, NINDIRECT, BSIZE] at *
    omega
  obtain ⟨hend, hbytes⟩ := hread j hj
  rw [Nat.mod_eq_of_lt hwrap] at hend hbytes
  have hj' := hpage j hj
  refine ⟨by omega, ?_⟩
  rw [segByte, Nat.mod_eq_of_lt hwrap, hbytes _ hj'.2.1]
  congr 1
  omega

end File

/-- Whatever is in the file, `exec` fails and has changed nothing, or the process has the new program: user
memory is mapped up to its size, and the bytes of each segment that no later segment covers are those of the file.
It stops only if all entries of the inode cache but one are in use. -/
theorem exec_all_or_nothing (hL : KmapOk L)
    (hco : ∀ pd va buf ram, ∃ r ram', copyout pd va buf ram = (.ok r, ram') ∧ CopiedOut pd va buf ram r ram')
    (hs : Ready L s cwd) (hnul : ∀ c ∈ path, c ≠ 0) :
    Meets (exec L copyout cwd path argv) s
      (fun r s' => r = -1 ∧ Unchanged s s' ∨ r = 0 ∧ Fs.Calm s.fs none 0 s'.fs ∧
        (∀ va, va < s'.proc.sz → (s'.proc.pgdir.get va).isSome = true) ∧
        ∃ i, s.fs.view.walk (s.fs.start cwd path) (elements path) = some i ∧
          ((s.fs.view.inode i).type ≠ T_DEV → ∀ pre ph post, fileSegments (s.fs.contents i) = pre ++ ph :: post →
            ∀ j, j < ph.filesz → (∀ ph' ∈ post, ¬ ph'.Covers (ph.vaddr + j)) →
              ph.off + j < (s.fs.view.inode i).size.toNat ∧
              load s'.proc.pgdir s'.phys.ram (ph.vaddr + j) = some (s.fs.view.byte i (ph.off + j))))
      fun e s' => ∃ e', e = .fs e' ∧ Fs.NoInodes s.fs e' s'.fs := by
  have hhonest : Honest copyout False := fun pd va buf ram => by
    obtain ⟨r, ram', hrun, hout⟩ := hco pd va buf ram
    exact .of_ok hrun hout.wrote
  refine (exec_meets hL hhonest hs hnul).mono ?_ fun e s' h => h.resolve_right fun hf => hf.1
  rintro r s' (h | ⟨rfl, i, hwalk, h⟩)
  · exact .inl h
  refine .inr ⟨rfl, h.fs, fun va hva => ?_, i, hwalk, fun hdev pre ph post heq j hj hlater => ?_⟩
  · have hup := (pgRoundUp_eq s'.proc.sz h.dir.low.le).2.2
    exact (h.dir.mapped va (hva.trans h.dir.low)).2 (by omega)
  · have hph : ph ∈ fileSegments (s.fs.contents i) := by simp [heq]
    have hfits := h.fits ph hph
    have hseg := segByte_contents hdev (hs.tree.store.size_le i h.live) (off_lt_of_mem hph) (h.full ph hph) hj
    refine ⟨hseg.1, ?_⟩
    rw [h.image _ (by omega), heq, loaded_last ⟨by omega, by omega⟩ hlater, Nat.add_sub_cancel_left]
    exact congrArg some hseg.2

/-! ### A small program -/

/-- An ELF header, one program header and a segment of four bytes. -/
def elfFile : List UInt8 :=
  words [ELF_MAGIC, 0, 0, 0, 0, 0, 0, 52, 0, 0, 0, 1, 0, ELF_PROG_LOAD, 84, 0, 0, 4, 4, 0, 0, 0xC3909090]

/-- The small image with this file under the name `a`. -/
def elfDisk (b : Nat) : Block :=
  if b = 32 then Dinode.write (Image.disk 32) 2 ⟨T_FILE, 0, 0, 1, 88, fun k => if k.val = 0 then 37 else 0⟩
  else if b = 35 then fun i => if i.val = 4 then 63 else Image.bitmap i
  else if b = 36 then Image.entries.put 32 DIRENT (Dirent.make [97] 2).bytes
  else if b = 37 then (Bytes.zero BSIZE).put 0 88 fun j => elfFile.getD j 0
  else Bytes.zero BSIZE

def fivePages : Layout := ⟨1, 9, [], Nat.one_pos, Layout.upper_nil⟩

/-- A process with one page, and five pages free. -/
def caller : Kernel :=
  ⟨Image.startedFrom elfDisk, ⟨⟨[3, 4, 6, 7, 8], [], [1, 2, 5], []⟩, fun _ _ => 0⟩, ⟨onePage, 4096, 0, 0, fun _ => 0⟩⟩

theorem caller_ready : Ready fivePages caller 0 := by
  have hsound : Sound fivePages ⟨[3, 4, 6, 7, 8], [], [1, 2, 5], []⟩ onePage :=
    onePage_sound (by decide) (by unfold Layout.managed; decide)
  exact ⟨Image.startedFrom_tree (by decide +kernel) (by decide +kernel) (by decide +kernel), Int.one_pos, fun _ => rfl,
    hsound.fresh, hsound.allManaged⟩

theorem fivePages_kmap : KmapOk fivePages := ⟨.nil, nofun, nofun⟩

def copyAll (pd : PageDir) (va : Nat) (buf : List UInt8) : Exec Ram Fault Int := fun ram =>
  if (List.range buf.length).all fun i => (pd.userPage ((va + i) % 2 ^ 32)).isSome then (.ok 0, storeAll pd va buf ram)
  else (.ok (-1), ram)

theorem copyAll_copiedOut (pd : PageDir) (va : Nat) (buf : List UInt8) (ram : Ram) :
    ∃ r ram', copyAll pd va buf ram = (.ok r, ram') ∧ CopiedOut pd va buf ram r ram' := by
  have hcov : (List.range buf.length).all (fun i => (pd.userPage ((va + i) % 2 ^ 32)).isSome) = true ↔
      pd.Covers va buf.length := by simp only [List.all_eq_true, List.mem_range, PageDir.Covers]
  unfold copyAll
  split
  · rename_i h
    exact ⟨0, _, rfl, .inl ⟨rfl, hcov.1 h, written_storeAll pd va buf ram⟩⟩
  · rename_i h
    exact ⟨-1, ram, rfl, .inr ⟨rfl, mt hcov.2 h, fun _ _ hne => absurd rfl hne⟩⟩

theorem exec_all_or_nothing_elf : ∃ s', exec fivePages copyAll 0 [slash, 97] [[97]] caller = (.ok 0, s') ∧
    (∀ va, va < s'.proc.sz → (s'.proc.pgdir.get va).isSome = true) ∧ load s'.proc.pgdir s'.phys.ram 3 = some 0xC3 := by
  have hrun : (match (exec fivePages copyAll 0 [slash, 97] [[97]] caller).1 with
    | .ok r => decide (r = 0)
    | .error _ => false) = true := by decide +kernel
  rcases heq : exec fivePages copyAll 0 [slash, 97] [[97]] caller with ⟨_ | r, s'⟩
  · rw [heq] at hrun
    cases hrun
  · rw [heq] at hrun
    obtain rfl := of_decide_eq_true hrun
    have h := (exec_all_or_nothing fivePages_kmap copyAll_copiedOut caller_ready (by simp [slash])).run_ok heq
    rcases h with ⟨h, -⟩ | ⟨-, -, hmap, i, hwalk, hseg⟩
    · cases h
    have hfound : caller.fs.view.walk (caller.fs.start 0 [slash, 97]) (elements [slash, 97]) = some 2 := by decide +kernel
    obtain rfl : 2 = i := Option.some.inj (hfound.symm.trans hwalk)
    have hone : fileSegments (caller.fs.contents 2) = [] ++ ⟨1, 84, 0, 4, 4⟩ :: [] := by decide +kernel
    refine ⟨s', rfl, hmap, ?_⟩
    rw [(hseg (by decide +kernel) _ _ _ hone 3 (by decide) nofun).2]
    decide +kernel

/-- What the first instruction of the new program finds on its stack. -/
theorem exec_stack_decodes {s' : Kernel} (hL : KmapOk L) (hs : Ready L s cwd) (hnul : ∀ c ∈ path, c ≠ 0)
    (hrun : exec L Vm.copyout cwd path argv s = (.ok 0, s')) :
    (∃ argvp ptrs, Decodes (load s'.proc.pgdir s'.phys.ram) s'.proc.sz s'.proc.esp argv argvp ptrs) ∧
      s'.proc.sz % PGSIZE = 0 ∧
      ∀ va, s'.proc.sz - 2 * PGSIZE ≤ va → va < s'.proc.sz - PGSIZE → load s'.proc.pgdir s'.phys.ram va = none := by
  rcases (exec_meets hL copyout_wrote hs hnul).run_ok hrun with ⟨h, -⟩ | ⟨-, i, -, h⟩
  · cases h
  refine ⟨h.stack, h.dir.align, fun va h1 h2 => ?_⟩
  have hlow := h.dir.low
  have hva : va < Vm.KERNBASE := by omega
  have hno := mt (h.dir.user va (by simp only [Vm.KERNBASE] at hva; omega)).1 fun hc => hc.2 ⟨h1, h2⟩
  rw [load_eq_byteAt hva, PageDir.byteAt, Nat.mod_eq_of_lt (by simp only [Vm.KERNBASE] at hva; omega)]
  rw [Option.not_isSome_iff_eq_none.1 hno]
  rfl

theorem exec_stack_decodes_elf : ∃ s', exec fivePages Vm.copyout 0 [slash, 97] [[97]] caller = (.ok 0, s') ∧
    ∃ argvp ptrs, Decodes (load s'.proc.pgdir s'.phys.ram) s'.proc.sz s'.proc.esp [[97]] argvp ptrs := by
  have hrun : (match (exec fivePages Vm.copyout 0 [slash, 97] [[97]] caller).1 with
    | .ok r => decide (r = 0)
    | .error _ => false) = true := by decide +kernel
  rcases heq : exec fivePages Vm.copyout 0 [slash, 97] [[97]] caller with ⟨_ | r, s'⟩
  · rw [heq] at hrun
    cases hrun
  · rw [heq] at hrun
    obtain rfl := of_decide_eq_true hrun
    exact ⟨s', rfl, (exec_stack_decodes fivePages_kmap caller_ready (by simp [slash]) heq).1⟩

end Xv6.Program
