import Xv6.Namei
import Xv6.NewSpace
import Xv6.Program

/-!
# Loading a program

While `exec` has the file locked the file system does not change, so what `readi` returns is a function of
the offset and the length (`Fs.contents`). The loop over the program headers keeps user memory below the
size mapped, whatever the headers say, and user memory holds the segments one over the other on zeroed
pages (`Laid`). It does not panic; when it gives up, the pages it has taken are those of the page directory.
-/

namespace Xv6

open Exec

/-! ### Reading a locked file -/

namespace Fs

variable {s s' : Fs} {ip : Slot} {I : Multiset Slot}

def contents (s : Fs) (i : Nat) (off n : UInt32) : Option (List UInt8) :=
  if (s.view.inode i).type = T_DEV then (s.device (s.view.inode i).major).read.bind fun f => f n
  else if (s.view.inode i).size < off ∨ off + n < off then none
  else some (s.view.slice i off.toNat (min n.toNat ((s.view.inode i).size.toNat - off.toNat)))

theorem Calm.readi (ht : s.Tree) (h : Calm s (some ip) I s') (hip : ip ∈ I) (hv : (s'.icache ip).valid = true)
    (off n : UInt32) : readi ip off n s' = (.ok (s.contents (s'.icache ip).inum off n), s') := by
  have hi := h.inode_eq ht hip hv
  have hlive := (h.kept ip hip).live
  unfold contents
  rw [hi]
  by_cases hdev : (s'.icache ip).type = T_DEV
  · have hsame : s'.device = s.device := by
      rw [h.same]
      rfl
    rw [if_pos hdev, ← hsame]
    show (if (s'.icache ip).type = T_DEV then _ else _ : FsM _) s' = _
    rw [if_pos hdev]
    rfl
  · rw [if_neg hdev, ← h.view]
    refine readi_eq (h.isOpen ht hip hv) hdev (fun pos _ _ hpos => ?_) ?_
    · rw [h.view]
      refine ht.store.full _ _ hlive ?_
      rw [hi]
      simp only [BSIZE]
      omega
    · have hmax := ht.store.size_le _ hlive
      rw [hi] at hmax
      omega

end Fs

namespace Program

open Vm

variable {L : Layout} {k₀ : Kmem} {ram₀ : Ram} {old pd : PageDir} {s : Kernel} {fs : Fs} {ip : Slot}
  {rd : UInt32 → UInt32 → Option (List UInt8)} {phs : List Proghdr} {ph : Proghdr} {sz va : Nat}

theorem onPhys_bind {α β : Type} (m : RM α) (f : α → RM β) : onPhys (m >>= f) = onPhys m >>= fun a => onPhys (f a) := by
  unfold onPhys
  rw [zoom_bind]
  · exact fun _ _ => rfl
  · exact fun _ _ _ => rfl

def stored (rd : UInt32 → UInt32 → Option (List UInt8)) (off n : Nat) : List UInt8 :=
  (rd (UInt32.ofNat off) (UInt32.ofNat n)).getD []

section Read

variable (hread : ∀ off n, readi ip off n fs = (.ok (rd off n), fs))

include hread

theorem onFs_readi (hs : s.fs = fs) (off n : UInt32) : onFs (readi ip off n) s = (.ok (rd off n), s) := by
  subst hs
  exact zoom_ok (hread off n)

theorem loadRounds_eq {addr offset : Nat} (m i : Nat) (hs : s.fs = fs) : loadRounds ip pd addr offset sz m i s =
    onPhys (Phys.loadRounds (stored rd) pd addr offset sz m i) s := by
  induction m generalizing i s with
  | zero => rfl
  | succ m ih =>
    rw [loadRounds, Phys.loadRounds]
    by_cases hlt : i < sz
    · rw [if_pos hlt, if_pos hlt]
      rcases pd.pde (PDX ((addr + i) % 2 ^ 32)) with _ | pgtab
      · rfl
      · dsimp only
        generalize (if sz - i < PGSIZE then sz - i else PGSIZE) = n
        rw [bind_of_ok (onFs_readi hread hs _ _), onPhys_bind]
        show (if _ then _ else _ : XM Bool) _ = onPhys (if _ then _ else _) _
        unfold stored
        split
        · rfl
        · exact ih _ hs
    · rw [if_neg hlt, if_neg hlt]
      rfl

theorem loaduvm_eq {addr offset : Nat} (hs : s.fs = fs) :
    loaduvm ip pd addr offset sz s = onPhys (Phys.loaduvm (stored rd) pd addr offset sz) s := by
  unfold loaduvm Phys.loaduvm
  split
  · rfl
  · exact loadRounds_eq hread _ _ hs

end Read

/-! ### Segments -/

/-- The loadable segments among `n` program headers from `off` on. -/
def segments (rd : UInt32 → UInt32 → Option (List UInt8)) : Nat → Nat → List Proghdr
  | 0, _ => []
  | n + 1, off =>
    let ph := Proghdr.read ((rd (UInt32.ofNat off) 32).getD [])
    if ph.type = ELF_PROG_LOAD then ph :: segments rd n (off + 32) else segments rd n (off + 32)

theorem segments_succ (n off : Nat) : segments rd (n + 1) off = segments rd 1 off ++ segments rd n (off + 32) := by
  rw [segments, segments]
  split <;> rfl

def Proghdr.Covers (ph : Proghdr) (va : Nat) : Prop := ph.vaddr ≤ va ∧ va < ph.vaddr + ph.filesz

instance (ph : Proghdr) (va : Nat) : Decidable (ph.Covers va) := inferInstanceAs (Decidable (_ ∧ _))

/-- What is at `va` when the segments are loaded one after the other. -/
def loaded (rd : UInt32 → UInt32 → Option (List UInt8)) (phs : List Proghdr) (va : Nat) : UInt8 :=
  phs.foldl (fun b ph => if ph.Covers va then segByte (stored rd) ph.off ph.filesz (va - ph.vaddr) else b) 0

theorem loaded_append (phs : List Proghdr) (ph : Proghdr) (va : Nat) : loaded rd (phs ++ [ph]) va =
    if ph.Covers va then segByte (stored rd) ph.off ph.filesz (va - ph.vaddr) else loaded rd phs va := by
  rw [loaded, List.foldl_append]
  rfl

/-- The last segment that covers an address is the one that counts. -/
theorem loaded_last {pre post : List Proghdr} (hcov : ph.Covers va) (hlater : ∀ ph' ∈ post, ¬ ph'.Covers va) :
    loaded rd (pre ++ ph :: post) va = segByte (stored rd) ph.off ph.filesz (va - ph.vaddr) := by
  induction post using List.reverseRecOn with
  | nil => rw [loaded_append, if_pos hcov]
  | append_singleton post ph' ih =>
    rw [← List.cons_append, ← List.append_assoc, loaded_append, if_neg (hlater ph' (by simp))]
    exact ih fun x hx => hlater x (List.mem_append_left _ hx)

theorem loaded_none (h : ∀ ph ∈ phs, ¬ ph.Covers va) : loaded rd phs va = 0 := by
  induction phs using List.reverseRecOn with
  | nil => rfl
  | append_singleton phs ph ih =>
    rw [loaded_append, if_neg (h ph (by simp))]
    exact ih fun x hx => h x (List.mem_append_left _ hx)

structure Laid (L : Layout) (k₀ : Kmem) (ram₀ : Ram) (rd : UInt32 → UInt32 → Option (List UInt8))
    (phs : List Proghdr) (sz : Nat) (pd : PageDir) (s : Phys) : Prop extends Space L k₀ ram₀ sz pd s where
  fits : ∀ ph ∈ phs, ph.vaddr + ph.filesz ≤ sz
  full : ∀ ph ∈ phs, FullyRead (stored rd) ph.off ph.filesz
  bytes : ∀ va, va < pgRoundUp sz → pd.byte s.ram va = some (loaded rd phs va)

namespace Laid

variable {pd' : PageDir} {p p' : Phys} {sz' : Nat}

theorem grow (h : Laid L k₀ ram₀ rd phs sz pd p) (hsp : Space L k₀ ram₀ sz' pd' p') (hle : sz ≤ sz')
    (hg : Space.Grows sz sz' pd p pd' p') : Laid L k₀ ram₀ rd phs sz' pd' p' := by
  refine ⟨hsp, fun ph hph => (h.fits ph hph).trans hle, h.full, fun va hva => ?_⟩
  rcases Nat.lt_or_ge va (pgRoundUp sz) with hlt | hge
  · rw [hg.old va hlt, h.bytes va hlt]
  · have hup := (pgRoundUp_eq sz h.size).2.2
    rw [hg.new va hge hva, loaded_none fun ph hph hcov => ?_]
    have := h.fits ph hph
    have := hcov.2
    omega

theorem segment (h : Laid L k₀ ram₀ rd phs sz pd p) (hsp : Space L k₀ ram₀ sz pd p') (hfit : ph.vaddr + ph.filesz ≤ sz)
    (hsame : ∀ va, va < ph.vaddr ∨ ph.vaddr + ph.filesz ≤ va → pd.byte p'.ram va = pd.byte p.ram va)
    (hnew : ∀ j, j < ph.filesz → pd.byte p'.ram (ph.vaddr + j) = some (segByte (stored rd) ph.off ph.filesz j))
    (hfull : FullyRead (stored rd) ph.off ph.filesz) : Laid L k₀ ram₀ rd (phs ++ [ph]) sz pd p' := by
  refine ⟨hsp, fun x hx => ?_, fun x hx => ?_, fun va hva => ?_⟩
  · rcases List.mem_append.1 hx with hx | hx
    · exact h.fits x hx
    · rwa [List.mem_singleton.1 hx]
  · rcases List.mem_append.1 hx with hx | hx
    · exact h.full x hx
    · rwa [List.mem_singleton.1 hx]
  · rw [loaded_append]
    split
    · rename_i hcov
      have := hnew (va - ph.vaddr) (by have := hcov.1; have := hcov.2; omega)
      rwa [Nat.add_sub_cancel' hcov.1] at this
    · rename_i hout
      rw [hsame va (by unfold Proghdr.Covers at hout; omega), h.bytes va hva]

end Laid

theorem field32_lt (bs : List UInt8) (off : Nat) : field32 bs off < 2 ^ 32 := Bytes.leNat_lt _ _ _

theorem off_lt_of_mem {n off : Nat} (h : ph ∈ segments rd n off) : ph.off < 2 ^ 32 := by
  induction n generalizing off with
  | zero => cases h
  | succ n ih =>
    rw [segments] at h
    split at h
    · rcases List.mem_cons.1 h with rfl | h
      · exact field32_lt _ 4
      · exact ih h
    · exact ih h

structure Keeps (s s' : Kernel) : Prop where
  fs : s'.fs = s.fs
  proc : s'.proc = s.proc

theorem onPhys_meets {α : Type} {m : RM α} {Q : α → Phys → Prop} (h : Meets m s.phys Q fun _ _ => False) :
    Meets (onPhys m) s (fun a s' => Keeps s s' ∧ Q a s'.phys) fun _ _ => False :=
  h.zoom (fun _ _ hq => ⟨⟨rfl, rfl⟩, hq⟩) fun _ _ hf => hf

section Loop

variable (hk : Fresh L k₀ old) (hread : ∀ off n, readi ip off n fs = (.ok (rd off n), fs))

include hk hread

theorem loadSegment_meets {off : Nat} (hs : s.fs = fs) (h : Laid L k₀ ram₀ rd phs sz pd s.phys) :
    Meets (loadSegment L ip off sz pd) s (fun x s' => Keeps s s' ∧ Owns k₀ ram₀ x.2 s'.phys ∧
      ∀ sz', x.1 = some sz' → Laid L k₀ ram₀ rd (phs ++ segments rd 1 off) sz' x.2 s'.phys) fun _ _ => False := by
  have hfail : Keeps s s ∧ Owns k₀ ram₀ pd s.phys ∧
      ∀ sz', none = some sz' → Laid L k₀ ram₀ rd (phs ++ segments rd 1 off) sz' pd s.phys :=
    ⟨⟨rfl, rfl⟩, h.toOwns, nofun⟩
  unfold loadSegment
  refine .ok_bind (onFs_readi hread hs _ _) ?_
  rcases hbs : rd (UInt32.ofNat off) 32 with _ | bs
  · exact .pure hfail
  dsimp only
  obtain ⟨ph, hph⟩ : ∃ ph, ph = Proghdr.read bs := ⟨_, rfl⟩
  rw [← hph]
  have hseg : segments rd 1 off = if ph.type = ELF_PROG_LOAD then [ph] else [] := by
    rw [segments, hbs, Option.getD_some, ← hph]
    rfl
  split
  · exact .pure hfail
  split
  · rename_i hskip
    refine .pure ⟨⟨rfl, rfl⟩, h.toOwns, fun sz' hsz => ?_⟩
    cases hsz
    rwa [hseg, if_neg hskip, List.append_nil]
  rename_i hload
  split
  · exact .pure hfail
  split
  · exact .pure hfail
  rename_i hmem hwrap
  have hend : (ph.vaddr + ph.memsz) % 2 ^ 32 = ph.vaddr + ph.memsz := by
    have h1 : ph.vaddr < 2 ^ 32 := hph ▸ field32_lt bs 8
    have h2 : ph.memsz < 2 ^ 32 := hph ▸ field32_lt bs 20
    omega
  rw [hend]
  refine .bind (onPhys_meets (h.toSpace.allocuvm hk _)) ?_
  rintro ⟨sz', pd'⟩ s1 ⟨hkeep, howns, hgrow⟩
  dsimp only at howns hgrow ⊢
  have hfail1 : Keeps s s1 ∧ Owns k₀ ram₀ pd' s1.phys ∧
      ∀ sz'', none = some sz'' → Laid L k₀ ram₀ rd (phs ++ segments rd 1 off) sz'' pd' s1.phys := ⟨hkeep, howns, nofun⟩
  split
  · exact .pure hfail1
  rename_i hpos
  obtain ⟨-, hmax, hsp, hg⟩ := hgrow (Nat.pos_of_ne_zero hpos)
  split
  · exact .pure hfail1
  rename_i halign
  have hlaid := h.grow hsp (hmax ▸ le_max_left _ _) hg
  have hfit : ph.vaddr + ph.filesz ≤ sz' := by
    have := le_max_right sz (ph.vaddr + ph.memsz)
    omega
  have hmeets := onPhys_meets (hsp.loaduvm (stored rd) ph.off hk hfit (not_not.1 halign))
  rw [Meets, ← loaduvm_eq hread (hkeep.fs.trans hs), ← Meets] at hmeets
  refine .bind hmeets ?_
  rintro ok s2 ⟨hkeep2, hsp2, hsame, hnew⟩
  refine .pure ⟨⟨hkeep2.fs.trans hkeep.fs, hkeep2.proc.trans hkeep.proc⟩, hsp2.toOwns, fun sz'' hsz => ?_⟩
  dsimp only at hsz
  split at hsz
  · rename_i hok
    cases hsz
    rw [hseg, if_pos (not_not.1 hload)]
    exact hlaid.segment hsp2 hfit hsame (hnew hok).1 (hnew hok).2
  · cases hsz

theorem loadSegments_meets (n : Nat) {off : Nat} (hs : s.fs = fs) (h : Laid L k₀ ram₀ rd phs sz pd s.phys) :
    Meets (loadSegments L ip n off sz pd) s (fun x s' => Keeps s s' ∧ Owns k₀ ram₀ x.2 s'.phys ∧
      ∀ sz', x.1 = some sz' → Laid L k₀ ram₀ rd (phs ++ segments rd n off) sz' x.2 s'.phys) fun _ _ => False := by
  induction n generalizing off s phs sz pd with
  | zero =>
    refine .pure ⟨⟨rfl, rfl⟩, h.toOwns, fun sz' hsz => ?_⟩
    cases hsz
    rwa [segments, List.append_nil]
  | succ n ih =>
    rw [loadSegments]
    refine .bind (loadSegment_meets hk hread hs h) ?_
    rintro ⟨_ | sz', pd'⟩ s1 ⟨hkeep, howns, hlaid⟩
    · exact .pure ⟨hkeep, howns, nofun⟩
    · refine (ih (hkeep.fs.trans hs) (hlaid sz' rfl)).mono ?_ fun _ _ => id
      rintro x s2 ⟨hkeep2, howns2, hlaid2⟩
      refine ⟨⟨hkeep2.fs.trans hkeep.fs, hkeep2.proc.trans hkeep.proc⟩, howns2, fun sz'' hsz => ?_⟩
      rw [segments_succ, ← List.append_assoc]
      exact hlaid2 sz'' hsz

end Loop

end Program

end Xv6
