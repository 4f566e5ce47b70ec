import Mathlib.Order.Basic
import Mathlib.Data.Set.Basic
import Mathlib.Order.Lattice

/-!
# Running minimum

The loop `if (value < h) h = value`, nested and with skips, described by what it does to `h`:
it lowers `h` to the least of the values it visits. `LowersTo.foldl` composes such loops.
-/

namespace CambriconGst.Lib

variable {α K : Type*} [LinearOrder K]

/-- `g` lowers its argument to the least value of `S`, or leaves it when that is smaller. -/
structure LowersTo (S : Set K) (g : K → K) : Prop where
  le : ∀ h, g h ≤ h
  lower : ∀ h, ∀ v ∈ S, g h ≤ v
  attained : ∀ h, g h = h ∨ g h ∈ S

namespace LowersTo

/-- One comparison. -/
theorem value (v : K) : LowersTo {v} (fun h => if v < h then v else h) where
  le := fun h => by split <;> [exact le_of_lt ‹_›; exact le_rfl]
  lower := fun h w hw => by
    obtain rfl : w = v := hw
    split
    · exact le_rfl
    · next hlt => exact not_lt.mp hlt
  attained := fun h => by
    split
    · exact Or.inr rfl
    · exact Or.inl rfl

/-- A skipped element. -/
theorem skip : LowersTo (∅ : Set K) (fun h => h) where
  le := fun _ => le_rfl
  lower := fun _ v hv => absurd hv (Set.notMem_empty v)
  attained := fun _ => Or.inl rfl

theorem congr {S T : Set K} {g : K → K} (h : LowersTo S g) (hST : ∀ v, v ∈ T ↔ v ∈ S) :
    LowersTo T g where
  le := h.le
  lower := fun x v hv => h.lower x v ((hST v).mp hv)
  attained := fun x => (h.attained x).imp id fun hm => (hST _).mpr hm

/-- A loop of comparisons. -/
theorem foldl {S : α → Set K} {g : K → α → K} (hg : ∀ a, LowersTo (S a) (fun h => g h a)) :
    ∀ l : List α, LowersTo {v | ∃ a ∈ l, v ∈ S a} (fun h => l.foldl g h) := by
  intro l
  induction l with
  | nil =>
    refine ⟨fun _ => le_rfl, ?_, fun _ => Or.inl rfl⟩
    rintro h v ⟨a, ha, -⟩
    simp at ha
  | cons a rest ih =>
    refine ⟨fun h => (ih.le _).trans ((hg a).le h), ?_, ?_⟩
    · rintro h v ⟨b, hb, hv⟩
      rcases List.mem_cons.mp hb with rfl | hb
      · exact (ih.le _).trans ((hg b).lower h v hv)
      · exact ih.lower _ v ⟨b, hb, hv⟩
    · intro h
      rcases ih.attained (g h a) with he | ⟨b, hb, hv⟩
      · rcases (hg a).attained h with he' | hv
        · left
          show rest.foldl g (g h a) = h
          rw [he, he']
        · right
          refine ⟨a, List.mem_cons_self, ?_⟩
          show rest.foldl g (g h a) ∈ S a
          rw [he]
          exact hv
      · exact Or.inr ⟨b, List.mem_cons_of_mem _ hb, hv⟩

/-- Started above a visited value, the loop ends at a visited value. -/
theorem attained_of_lt {S : Set K} {g : K → K} (hg : LowersTo S g) {h v : K} (hv : v ∈ S)
    (hlt : v < h) : g h ∈ S := by
  rcases hg.attained h with he | hm
  · exact absurd (hg.lower h v hv) (by rw [he]; exact not_le.mpr hlt)
  · exact hm

end LowersTo

end CambriconGst.Lib
