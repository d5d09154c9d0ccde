import Mathlib

/-!
# Ring buffers with free-running 32-bit counters

A ring of `cap` slots is indexed by two counters that only ever grow and are kept modulo `2 ^ 32`;
a slot is selected by reducing a counter modulo `cap`. The unbounded counts `r ≤ w ≤ r + cap` are
ghosts: the lemmas below say that comparing and subtracting the machine counters is comparing and
subtracting the ghosts, provided `cap` divides `2 ^ 32` and is smaller than it, and
`Window data r w l` says that the slots of the counts `r, …, w - 1` hold the entries of the history
`l` with these indices.
-/

namespace RingBuffer

variable {β : Type*} {cap r w : Nat}

theorem ofNat_eq_iff (hrw : r ≤ w) (hw : w ≤ r + cap) (hcap : cap < 2 ^ 32) :
    UInt32.ofNat r = UInt32.ofNat w ↔ r = w := by
  constructor
  · intro h
    have := congrArg UInt32.toNat h
    simp only [UInt32.toNat_ofNat'] at this
    omega
  · rintro rfl; rfl

theorem ofNat_eq_add_cap_iff (hrw : r ≤ w) (hw : w ≤ r + cap) (hcap : cap < 2 ^ 32) :
    UInt32.ofNat w = UInt32.ofNat r + UInt32.ofNat cap ↔ w = r + cap := by
  rw [← UInt32.ofNat_add]
  constructor
  · intro h
    have := congrArg UInt32.toNat h
    simp only [UInt32.toNat_ofNat'] at this
    omega
  · rintro rfl; rfl

theorem toNat_sub_ofNat (hrw : r ≤ w) (hw : w ≤ r + cap) (hcap : cap < 2 ^ 32) :
    (UInt32.ofNat w - UInt32.ofNat r).toNat = w - r := by
  rw [UInt32.toNat_sub, UInt32.toNat_ofNat', UInt32.toNat_ofNat']
  omega

theorem ofNat_succ (n : Nat) : UInt32.ofNat n + 1 = UInt32.ofNat (n + 1) := by
  rw [UInt32.ofNat_add]; rfl

theorem ofNat_pred (n : Nat) : UInt32.ofNat (n + 1) - 1 = UInt32.ofNat n := by
  rw [← ofNat_succ, UInt32.add_sub_cancel]

variable [NeZero cap]

def slot (cap : Nat) [NeZero cap] (c : UInt32) : Fin cap := Fin.ofNat cap c.toNat

theorem slot_ofNat (hdvd : cap ∣ 2 ^ 32) (n : Nat) : slot cap (UInt32.ofNat n) = Fin.ofNat cap n := by
  apply Fin.ext
  simp only [slot, Fin.val_ofNat, UInt32.toNat_ofNat']
  exact Nat.mod_mod_of_dvd n hdvd

/-- The slots of the counts `r, …, w - 1` hold the entries of `l` with these indices. -/
def Window (data : Fin cap → β) (r w : Nat) (l : List β) : Prop :=
  ∀ k, r ≤ k → k < w → l[k]? = some (data (Fin.ofNat cap k))

theorem slots_ne {j k : Nat} (hjk : j < k) (hk : k < j + cap) : Fin.ofNat cap j ≠ Fin.ofNat cap k := by
  intro h
  have h' := congrArg Fin.val h
  simp only [Fin.val_ofNat] at h'
  have hdvd : cap ∣ k - j := (Nat.modEq_iff_dvd' hjk.le).1 h'
  exact absurd (Nat.le_of_dvd (by omega) hdvd) (by omega)

namespace Window

variable {data : Fin cap → β} {l : List β}

theorem nil (data : Fin cap → β) (l : List β) : Window data r r l := fun k h1 h2 => by omega

theorem push (h : Window data r w l) (hl : l.length = w) (hw : w < r + cap) (b : β) :
    Window (Function.update data (Fin.ofNat cap w) b) r (w + 1) (l ++ [b]) := by
  intro k h1 h2
  rcases Nat.lt_succ_iff_lt_or_eq.1 h2 with hk | rfl
  · rw [Function.update_of_ne (slots_ne hk (by omega)), List.getElem?_append_left (by omega)]
    exact h k h1 hk
  · rw [Function.update_self, ← hl, List.getElem?_concat_length]

theorem pop (h : Window data r w l) : Window data (r + 1) w l := fun k h1 => h k (by omega)

theorem shrink {l' : List β} {w' : Nat} (h : Window data r w l) (hw : w' ≤ w) (hl : ∀ k, k < w' → l'[k]? = l[k]?) :
    Window data r w' l' :=
  fun k h1 h2 => (hl k h2).trans (h k h1 (by omega))

theorem head (h : Window data r w l) (hrw : r < w) : l[r]? = some (data (Fin.ofNat cap r)) :=
  h r le_rfl hrw

/-- What the ring holds is the part of the history from `r` on. -/
theorem drop_eq (h : Window data r w l) (hl : l.length = w) :
    l.drop r = (List.range (w - r)).map fun k => data (Fin.ofNat cap (r + k)) := by
  apply List.ext_getElem?
  intro k
  rw [List.getElem?_drop, List.getElem?_map]
  by_cases hk : k < w - r
  · rw [h (r + k) (by omega) (by omega), List.getElem?_range hk, Option.map_some]
  · rw [List.getElem?_eq_none (by omega), List.getElem?_eq_none (by simpa using hk), Option.map_none]

end Window

end RingBuffer
