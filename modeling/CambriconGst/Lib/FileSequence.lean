import Mathlib.Data.List.Nodup
import Mathlib.Logic.Function.Basic

/-!
# Sequences of files

Names in order, each with what was written to its file. Text goes to the last file, new files come
at the end, and old ones are unlinked from the front.

* `contents_append`, `contents_create`, `contents_unlink`: what each operation does to the text of
  the whole sequence
-/

namespace CambriconGst.Lib.FileSequence

variable {ι α : Type*} [DecidableEq ι]

/-- The text of the files, in the order of their names. -/
def contents (disk : ι → Option (List α)) (names : List ι) : List α :=
  names.flatMap fun name => (disk name).getD []

def append (disk : ι → Option (List α)) (name : ι) (text : List α) : ι → Option (List α) :=
  Function.update disk name (some ((disk name).getD [] ++ text))

/-- A file that was there already is emptied. -/
def create (disk : ι → Option (List α)) (name : ι) : ι → Option (List α) :=
  Function.update disk name (some [])

def unlink (disk : ι → Option (List α)) (name : ι) : ι → Option (List α) :=
  Function.update disk name none

/-- The files are those of the names, and no name comes twice. -/
structure Named (disk : ι → Option (List α)) (names : List ι) : Prop where
  nodup : names.Nodup
  isSome_iff : ∀ name, (disk name).isSome = true ↔ name ∈ names

variable {disk : ι → Option (List α)} {names : List ι} {name : ι} {text : List α}

omit [DecidableEq ι] in
theorem contents_concat : contents disk (names ++ [name]) =
    contents disk names ++ (disk name).getD [] := by
  rw [contents, List.flatMap_append, List.flatMap_singleton]
  rfl

omit [DecidableEq ι] in
theorem contents_congr {disk' : ι → Option (List α)}
    (h : ∀ name ∈ names, disk' name = disk name) : contents disk' names = contents disk names :=
  List.flatMap_congr fun name hname => by rw [h name hname]

/-- A change to a file that is none of the sequence. -/
theorem contents_update {v : Option (List α)} (h : name ∉ names) :
    contents (Function.update disk name v) names = contents disk names :=
  contents_congr fun other hm =>
    Function.update_of_ne (fun he : other = name => h (he ▸ hm)) _ _

namespace Named

theorem contents_append (h : Named disk names) (hl : names.getLast? = some name) :
    contents (append disk name text) names = contents disk names ++ text := by
  obtain ⟨front, rfl⟩ := List.getLast?_eq_some_iff.mp hl
  have hnot : name ∉ front := by
    have := List.nodup_append.mp h.nodup
    exact fun hm => this.2.2 name hm name List.mem_cons_self rfl
  rw [contents_concat, contents_concat, append, contents_update hnot, Function.update_self,
    Option.getD_some, List.append_assoc]

theorem append (h : Named disk names) (hm : name ∈ names) :
    Named (append disk name text) names := by
  refine ⟨h.nodup, fun other => ?_⟩
  by_cases hne : other = name
  · subst hne
    rw [FileSequence.append, Function.update_self]
    exact ⟨fun _ => hm, fun _ => rfl⟩
  · rw [FileSequence.append, Function.update_of_ne hne]
    exact h.isSome_iff other

theorem contents_create (hn : name ∉ names) :
    contents (create disk name) (names ++ [name]) = contents disk names := by
  rw [contents_concat, create, contents_update hn, Function.update_self, Option.getD_some,
    List.append_nil]

theorem create (h : Named disk names) (hn : name ∉ names) :
    Named (create disk name) (names ++ [name]) := by
  refine ⟨?_, fun other => ?_⟩
  · exact List.nodup_append.mpr ⟨h.nodup, List.nodup_singleton name,
      fun a ha b hb he => hn (by rw [← List.mem_singleton.mp hb, ← he]; exact ha)⟩
  · rw [List.mem_append, List.mem_singleton]
    by_cases hne : other = name
    · subst hne
      rw [FileSequence.create, Function.update_self]
      exact ⟨fun _ => .inr rfl, fun _ => rfl⟩
    · rw [FileSequence.create, Function.update_of_ne hne, h.isSome_iff]
      exact ⟨.inl, fun hm => hm.resolve_right hne⟩

theorem contents_unlink (h : Named disk (name :: names)) :
    (disk name).getD [] ++ contents (unlink disk name) names = contents disk (name :: names) := by
  rw [unlink, contents_update (List.nodup_cons.mp h.nodup).1]
  rfl

theorem unlink (h : Named disk (name :: names)) : Named (unlink disk name) names := by
  obtain ⟨hnot, hnd⟩ := List.nodup_cons.mp h.nodup
  refine ⟨hnd, fun other => ?_⟩
  by_cases hne : other = name
  · subst hne
    rw [FileSequence.unlink, Function.update_self]
    exact ⟨fun hs => absurd hs (by simp), fun hm => absurd hm hnot⟩
  · rw [FileSequence.unlink, Function.update_of_ne hne, h.isSome_iff, List.mem_cons]
    exact ⟨fun hm => hm.resolve_left hne, .inr⟩

end Named

end CambriconGst.Lib.FileSequence
