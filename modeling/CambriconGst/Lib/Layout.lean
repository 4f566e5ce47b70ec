import CambriconGst.Lib.WriteLog

/-!
# Blocks behind a header

A memory is laid out by writing a header and reserving blocks behind it, each under a key that says
how long it is and what is written to it.

* `Laid`: the blocks lie behind the header, apart from each other, and hold what was written
* `Laid.write`: a write to the header
* `Laid.reserve`: a new block
-/

namespace CambriconGst.Lib

/-- The blocks of the list, under their keys, in a memory in use up to `cur`. -/
structure Laid {κ β : Type*} (size : κ → Nat) (content : κ → Nat → List (Write β)) (header cur : Nat)
    (log : List (Write β)) (blocks : List (κ × Nat)) : Prop where
  header_le : header ≤ cur
  below : ∀ w ∈ log, w.offset + w.size ≤ cur
  inside : ∀ b ∈ blocks, header ≤ b.2 ∧ b.2 + size b.1 ≤ cur
  disjoint : ∀ b ∈ blocks, ∀ b' ∈ blocks, b ≠ b' →
    b.2 + size b.1 ≤ b'.2 ∨ b'.2 + size b'.1 ≤ b.2
  written : ∀ b ∈ blocks, WrittenTo log (content b.1 b.2) b.2 (size b.1)
  covered : ∀ w ∈ log, w.offset + w.size ≤ header ∨ ∃ b ∈ blocks, w ∈ content b.1 b.2

namespace Laid

variable {κ β : Type*} {size : κ → Nat} {content : κ → Nat → List (Write β)} {header cur : Nat}
  {log : List (Write β)} {blocks blocks' : List (κ × Nat)} {k : κ}

theorem nil (header : Nat) : Laid size content header header [] [] where
  header_le := Nat.le_refl header
  below _ hw := absurd hw List.not_mem_nil
  inside _ hb := absurd hb List.not_mem_nil
  disjoint _ hb := absurd hb List.not_mem_nil
  written _ hb := absurd hb List.not_mem_nil
  covered _ hw := absurd hw List.not_mem_nil

/-- The order of the blocks, and how often one is listed, are of no account. -/
theorem congr (h : Laid size content header cur log blocks) (hmem : ∀ b, b ∈ blocks' ↔ b ∈ blocks) :
    Laid size content header cur log blocks' where
  header_le := h.header_le
  below := h.below
  inside b hb := h.inside b ((hmem b).mp hb)
  disjoint b hb b' hb' := h.disjoint b ((hmem b).mp hb) b' ((hmem b').mp hb')
  written b hb := h.written b ((hmem b).mp hb)
  covered w hw := (h.covered w hw).imp_right fun ⟨b, hb, hc⟩ => ⟨b, (hmem b).mpr hb, hc⟩

theorem write {w : Write β} (h : Laid size content header cur log blocks)
    (hw : w.offset + w.size ≤ header) : Laid size content header cur (log ++ [w]) blocks where
  header_le := h.header_le
  below w' hw' := by
    rcases List.mem_append.mp hw' with hw' | hw'
    · exact h.below w' hw'
    · rw [List.mem_singleton.mp hw']
      exact Nat.le_trans hw h.header_le
  inside := h.inside
  disjoint := h.disjoint
  written b hb := (h.written b hb).append fun w' hw' => by
    rw [List.mem_singleton.mp hw']
    exact .inl (Nat.le_trans hw (h.inside b hb).1)
  covered w' hw' := by
    rcases List.mem_append.mp hw' with hw' | hw'
    · exact h.covered w' hw'
    · rw [List.mem_singleton.mp hw']
      exact .inl hw

/-- A new block is laid down where the others end. -/
theorem reserve (h : Laid size content header cur log blocks)
    (hin : ∀ w ∈ content k cur, w.Inside cur (size k)) :
    Laid size content header (cur + size k) (log ++ content k cur) ((k, cur) :: blocks) where
  header_le := Nat.le_add_right_of_le h.header_le
  below w hw := by
    rcases List.mem_append.mp hw with hw | hw
    · exact Nat.le_add_right_of_le (h.below w hw)
    · exact (hin w hw).2
  inside b hb := by
    rcases List.mem_cons.mp hb with rfl | hb
    · exact ⟨h.header_le, Nat.le_refl _⟩
    · exact ⟨(h.inside b hb).1, Nat.le_add_right_of_le (h.inside b hb).2⟩
  disjoint b hb b' hb' hne := by
    rcases List.mem_cons.mp hb with rfl | hb <;> rcases List.mem_cons.mp hb' with rfl | hb'
    · exact absurd rfl hne
    · exact .inr (h.inside b' hb').2
    · exact .inl (h.inside b hb).2
    · exact h.disjoint b hb b' hb' hne
  written b hb := by
    rcases List.mem_cons.mp hb with rfl | hb
    · exact .of_append fun w hw => .inl (h.below w hw)
    · refine (h.written b hb).append fun w hw => .inr ?_
      exact Nat.le_trans (h.inside b hb).2 (hin w hw).1
  covered w hw := by
    rcases List.mem_append.mp hw with hw | hw
    · exact (h.covered w hw).imp_right fun ⟨b, hb, hc⟩ => ⟨b, List.mem_cons_of_mem _ hb, hc⟩
    · exact .inr ⟨(k, cur), List.mem_cons_self, hw⟩

/-- What lies in a block, at whatever offset the block starts. -/
theorem load_eq (h : Laid size content header cur log blocks)
    (hshift : ∀ k start, content k start = (content k 0).map (Write.shift start)) {b : κ × Nat}
    (hb : b ∈ blocks) {o n : Nat} (ho : o + n ≤ size b.1) :
    load log (b.2 + o) n = load (content b.1 0) o n := by
  rw [(h.written b hb).load_eq (Nat.le_add_right _ _) (by omega), hshift, load_shift]

end Laid

end CambriconGst.Lib
