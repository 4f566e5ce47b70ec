import Mathlib.Algebra.Ring.Nat
import Mathlib.Data.Nat.Basic
import Mathlib.Tactic.TypeStar

/-!
# Arrays in a block of bytes

A memory of bytes in which arrays start at addresses of their own. How a value lies in bytes is its
codec.

* `Pointer.get`, `Pointer.set`: elements, at whatever index, as a pointer reaches them
* `fill`, `copy`: `memset` and `memcpy`
* `Settles`: a byte that is written whatever it was
* `within`: other bytes outside of a block. What commutes with it uses and changes nothing there
-/

namespace CambriconGst.Lib

variable {V W B : Type*} {s t : Nat}

@[ext]
structure Memory (B : Type*) where
  byte : Nat → B

/-- Values that lie in `size` bytes. Any bytes are some value. -/
structure Codec (V B : Type*) (size : Nat) where
  encode : V → Fin size → B
  decode : (Fin size → B) → V
  decode_encode : ∀ v, decode (encode v) = v

/-- Where an array starts. -/
structure Pointer (V B : Type*) (size : Nat) where
  base : Nat
  codec : Codec V B size

namespace Pointer

/-- The address behind `n` elements. -/
def after (p : Pointer V B s) (n : Nat) : Nat :=
  p.base + s * n

def get (p : Pointer V B s) (m : Memory B) (i : Nat) : V :=
  p.codec.decode fun k => m.byte (p.after i + k)

def set (p : Pointer V B s) (m : Memory B) (i : Nat) (v : V) : Memory B where
  byte a :=
    if h : p.after i ≤ a ∧ a < p.after i + s then p.codec.encode v ⟨a - p.after i, by omega⟩
    else m.byte a

variable {p : Pointer V B s} {q : Pointer W B t} {m m' : Memory B} {i j n k : Nat} {v : V}

theorem after_succ : p.after (i + 1) = p.after i + s := by
  simp only [after, Nat.mul_succ, Nat.add_assoc]

theorem after_le_after (h : i ≤ j) : p.after i ≤ p.after j :=
  Nat.add_le_add_left (Nat.mul_le_mul_left s h) p.base

theorem get_congr (h : ∀ a, p.after i ≤ a → a < p.after i + s → m.byte a = m'.byte a) :
    p.get m i = p.get m' i := by
  unfold get
  congr 1
  funext k
  exact h _ (Nat.le_add_right _ _) (Nat.add_lt_add_left k.isLt _)

theorem set_of_outside {a : Nat} (h : a < p.after i ∨ p.after i + s ≤ a) :
    (p.set m i v).byte a = m.byte a :=
  dif_neg fun ha => by omega

@[simp]
theorem get_set_self : p.get (p.set m i v) i = v := by
  have hbytes : (fun k : Fin s => (p.set m i v).byte (p.after i + k)) = p.codec.encode v := by
    funext k
    have hin : p.after i ≤ p.after i + k ∧ p.after i + k < p.after i + s :=
      ⟨Nat.le_add_right _ _, Nat.add_lt_add_left k.isLt _⟩
    refine (dif_pos hin).trans (congrArg (p.codec.encode v) ?_)
    exact Fin.ext (Nat.add_sub_cancel_left _ _)
  rw [get, hbytes, p.codec.decode_encode]

theorem get_set_of_ne (h : i ≠ j) : p.get (p.set m i v) j = p.get m j := by
  refine get_congr fun a hlo hhi => set_of_outside ?_
  rcases Nat.lt_or_gt_of_ne h with h | h
  · have hle := p.after_le_after (Nat.succ_le_of_lt h)
    rw [after_succ] at hle
    exact .inr (Nat.le_trans hle hlo)
  · have hle := p.after_le_after (Nat.succ_le_of_lt h)
    rw [after_succ] at hle
    exact .inl (Nat.lt_of_lt_of_le hhi hle)

theorem get_set : p.get (p.set m i v) j = if j = i then v else p.get m j := by
  split
  · next h => rw [h, get_set_self]
  · next h => exact get_set_of_ne (Ne.symm h)

/-- Two arrays, of `n` and `k` elements, one before the other. -/
def Apart (p : Pointer V B s) (n : Nat) (q : Pointer W B t) (k : Nat) : Prop :=
  p.after n ≤ q.base ∨ q.after k ≤ p.base

theorem Apart.symm (h : p.Apart n q k) : q.Apart k p n :=
  Or.symm h

theorem base_le_after : p.base ≤ p.after i :=
  Nat.le_add_right _ _

/-- An array is not changed by assignments to another. -/
theorem Apart.get_set (h : p.Apart n q k) (hi : i < n) (hj : j < k) :
    q.get (p.set m i v) j = q.get m j := by
  refine get_congr fun a hlo hhi => set_of_outside ?_
  have hp := p.after_le_after (Nat.succ_le_of_lt hi)
  have hq := q.after_le_after (Nat.succ_le_of_lt hj)
  rw [after_succ] at hp hq
  have hp' : p.base ≤ p.after i := base_le_after
  have hq' : q.base ≤ q.after j := base_le_after
  rcases h with h | h <;> omega

end Pointer

/-! ## Blocks -/

/-- `memset`. -/
def fill (start len : Nat) (b : B) (m : Memory B) : Memory B where
  byte a := if start ≤ a ∧ a < start + len then b else m.byte a

/-- `memcpy`, of blocks that do not overlap. -/
def copy (dst src len : Nat) (m : Memory B) : Memory B where
  byte a := if dst ≤ a ∧ a < dst + len then m.byte (src + (a - dst)) else m.byte a

section Blocks

variable {p q : Pointer V B s} {m : Memory B} {start len dst src i n : Nat} {b : B}

theorem get_fill (hlo : start ≤ p.after i) (hhi : p.after i + s ≤ start + len) :
    p.get (fill start len b m) i = p.codec.decode fun _ => b := by
  unfold Pointer.get
  congr 1
  funext k
  have hk := k.isLt
  exact if_pos ⟨by omega, by omega⟩

theorem get_fill_of_outside (h : p.after i + s ≤ start ∨ start + len ≤ p.after i) :
    p.get (fill start len b m) i = p.get m i :=
  Pointer.get_congr fun _ _ _ => if_neg fun ha => by omega

/-- The copy of an array. -/
theorem get_copy (hc : p.codec = q.codec) (hi : i < n) :
    p.get (copy p.base q.base (s * n) m) i = q.get m i := by
  have hle : s * (i + 1) ≤ s * n := Nat.mul_le_mul_left s hi
  rw [Nat.mul_succ] at hle
  unfold Pointer.get
  rw [hc]
  congr 1
  funext k
  have hk := k.isLt
  have hin : p.base ≤ p.after i + k ∧ p.after i + k < p.base + s * n := by
    simp only [Pointer.after]
    omega
  have haddr : q.base + (p.after i + k - p.base) = q.after i + k := by
    simp only [Pointer.after]
    omega
  exact (if_pos hin).trans (congrArg m.byte haddr)

theorem get_copy_of_outside (h : p.after i + s ≤ dst ∨ dst + len ≤ p.after i) :
    p.get (copy dst src len m) i = p.get m i :=
  Pointer.get_congr fun _ _ _ => if_neg fun ha => by omega

end Blocks

/-! ## Bytes that are settled -/

/-- Memories with the same byte at `a` still have it. -/
def Keeps (f : Memory B → Memory B) (a : Nat) : Prop :=
  ∀ m m', m.byte a = m'.byte a → (f m).byte a = (f m').byte a

/-- All memories have the same byte at `a` afterwards. -/
def Settles (f : Memory B → Memory B) (a : Nat) : Prop :=
  ∀ m m', (f m).byte a = (f m').byte a

section Settles

variable {p : Pointer V B s} {ι : Type*} {f : Memory B → ι → Memory B} {is : List ι} {a i : Nat}
  {v : V}

theorem keeps_set (p : Pointer V B s) (i : Nat) (v : V) (a : Nat) :
    Keeps (fun m => p.set m i v) a := by
  intro m m' h
  simp only [Pointer.set, h]

theorem settles_set (hlo : p.after i ≤ a) (hhi : a < p.after i + s) :
    Settles (fun m => p.set m i v) a := by
  intro m m'
  simp only [Pointer.set, dif_pos (And.intro hlo hhi)]

theorem Keeps.foldl (h : ∀ i, Keeps (fun m => f m i) a) : Keeps (fun m => is.foldl f m) a := by
  induction is with
  | nil => exact fun _ _ hm => hm
  | cons i is ih => exact fun m m' hm => ih _ _ (h i m m' hm)

theorem Settles.foldl (hk : ∀ i, Keeps (fun m => f m i) a) {i : ι} (hi : i ∈ is)
    (h : Settles (fun m => f m i) a) : Settles (fun m => is.foldl f m) a := by
  induction is with
  | nil => exact absurd hi List.not_mem_nil
  | cons j is ih =>
    obtain rfl | hi := List.mem_cons.mp hi
    · exact fun m m' => Keeps.foldl hk (f m i) (f m' i) (h m m')
    · exact fun m m' => ih hi _ _

end Settles

/-! ## Bytes that are not used -/

/-- The bytes of `m` from `lo` up to `hi`, and those of `outer` elsewhere. -/
def within (lo hi : Nat) (outer m : Memory B) : Memory B where
  byte a := if lo ≤ a ∧ a < hi then m.byte a else outer.byte a

section Within

variable {p : Pointer V B s} {m m' outer : Memory B} {lo hi i : Nat} {v : V}

/-- Memories that are the same from `lo` up to `hi` have the same bytes but for those outside. -/
theorem within_of_agree (h : ∀ a, lo ≤ a → a < hi → m.byte a = m'.byte a) :
    within lo hi m m' = m := by
  ext a
  by_cases ha : lo ≤ a ∧ a < hi
  · exact (if_pos ha).trans (h a ha.1 ha.2).symm
  · exact if_neg ha

theorem within_self : within lo hi m m = m :=
  within_of_agree fun _ _ _ => rfl

theorem get_within (hlo : lo ≤ p.after i) (hhi : p.after i + s ≤ hi) :
    p.get (within lo hi outer m) i = p.get m i :=
  Pointer.get_congr fun _ ha hb =>
    if_pos ⟨Nat.le_trans hlo ha, Nat.lt_of_lt_of_le hb hhi⟩

theorem set_within (hlo : lo ≤ p.after i) (hhi : p.after i + s ≤ hi) :
    p.set (within lo hi outer m) i v = within lo hi outer (p.set m i v) := by
  ext a
  by_cases ha : p.after i ≤ a ∧ a < p.after i + s
  · have hin : lo ≤ a ∧ a < hi := by omega
    simp only [Pointer.set, within, dif_pos ha, if_pos hin]
  · simp only [Pointer.set, within, dif_neg ha]

theorem fill_within {start len : Nat} {b : B} (hlo : lo ≤ start) (hhi : start + len ≤ hi) :
    fill start len b (within lo hi outer m) = within lo hi outer (fill start len b m) := by
  ext a
  by_cases ha : start ≤ a ∧ a < start + len
  · have hin : lo ≤ a ∧ a < hi := by omega
    simp only [fill, within, if_pos ha, if_pos hin]
  · simp only [fill, within, if_neg ha]

theorem copy_within {dst src len : Nat} (hdst : lo ≤ dst ∧ dst + len ≤ hi)
    (hsrc : lo ≤ src ∧ src + len ≤ hi) :
    copy dst src len (within lo hi outer m) = within lo hi outer (copy dst src len m) := by
  ext a
  by_cases ha : dst ≤ a ∧ a < dst + len
  · have hin : lo ≤ a ∧ a < hi := by omega
    have hread : lo ≤ src + (a - dst) ∧ src + (a - dst) < hi := by omega
    simp only [copy, within, if_pos ha, if_pos hin, if_pos hread]
  · simp only [copy, within, if_neg ha]

/-- A loop whose steps use nothing outside uses nothing outside. -/
theorem foldl_within {ι : Type*} {f : Memory B → ι → Memory B} (is : List ι)
    (h : ∀ m, ∀ i ∈ is, f (within lo hi outer m) i = within lo hi outer (f m i)) (m : Memory B) :
    is.foldl f (within lo hi outer m) = within lo hi outer (is.foldl f m) := by
  induction is generalizing m with
  | nil => rfl
  | cons i is ih =>
    rw [List.foldl_cons, List.foldl_cons, h m i List.mem_cons_self]
    exact ih (fun m j hj => h m j (List.mem_cons_of_mem i hj)) _

/-- What uses nothing outside changes nothing outside. -/
theorem eq_within {f : Memory B → Memory B}
    (h : ∀ outer m, f (within lo hi outer m) = within lo hi outer (f m)) (m : Memory B) :
    f m = within lo hi m (f m) := by
  have hself := h m m
  rwa [within_self] at hself

/-- An element outside. -/
theorem get_within_outside (h : ∀ a, p.after i ≤ a → a < p.after i + s → ¬(lo ≤ a ∧ a < hi)) :
    p.get (within lo hi outer m) i = p.get outer i :=
  Pointer.get_congr fun a ha hb => if_neg (h a ha hb)

end Within

end CambriconGst.Lib
