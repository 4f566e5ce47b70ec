import Mathlib.Data.List.Basic
import Mathlib.Data.List.Forall2
import Mathlib.Data.List.Nodup

/-!
# Checked access to lists

Reads and writes of a vector by index that fail out of range, and loops of them. `e` is the error
of an index out of range.
-/

namespace CambriconGst.Lib

universe u v

variable {ε : Type v} {α β : Type u}

/-- A bind succeeds when both parts do. -/
theorem bind_eq_ok {x : Except ε α} {f : α → Except ε β} {b : β} :
    x >>= f = .ok b ↔ ∃ a, x = .ok a ∧ f a = .ok b := by
  cases x with
  | error e =>
    constructor
    · intro h
      cases h
    · rintro ⟨_, h, _⟩
      cases h
  | ok a =>
    constructor
    · exact fun h => ⟨a, rfl, h⟩
    · rintro ⟨_, h, hf⟩
      cases h
      exact hf

def readAt (e : ε) (xs : List α) (i : Nat) : Except ε α :=
  match xs[i]? with
  | some a => .ok a
  | none => .error e

theorem readAt_eq_ok {e : ε} {xs : List α} {i : Nat} {a : α} :
    readAt e xs i = .ok a ↔ xs[i]? = some a := by
  unfold readAt
  cases xs[i]? <;> simp

theorem readAt_of_lt {e : ε} {xs : List α} {i : Nat} (h : i < xs.length) :
    readAt e xs i = .ok xs[i] :=
  readAt_eq_ok.mpr (List.getElem?_eq_getElem h)

def modifyAt (e : ε) (xs : List α) (i : Nat) (f : α → α) : Except ε (List α) :=
  if i < xs.length then .ok (xs.modify i f) else .error e

theorem modifyAt_eq_ok {e : ε} {xs ys : List α} {i : Nat} {f : α → α} :
    modifyAt e xs i f = .ok ys ↔ i < xs.length ∧ xs.modify i f = ys := by
  unfold modifyAt
  split
  · next h => rw [Except.ok.injEq]; exact ⟨fun he => ⟨h, he⟩, fun he => he.2⟩
  · next h => exact ⟨fun he => by simp at he, fun he => absurd he.1 h⟩

/-! ## Loops -/

/-- Modify the element at each key, in order. -/
def updateEach (e : ε) (key : β → Nat) (f : β → Except ε (α → α)) (us : List β) (xs : List α) :
    Except ε (List α) :=
  us.foldlM (fun xs u => do modifyAt e xs (key u) (← f u)) xs

variable {e : ε} {key : β → Nat} {f : β → Except ε (α → α)}

theorem updateEach_cons {u : β} {us : List β} {xs ys : List α} :
    updateEach e key f (u :: us) xs = .ok ys ↔ ∃ g, f u = .ok g ∧ key u < xs.length ∧
      updateEach e key f us (xs.modify (key u) g) = .ok ys := by
  unfold updateEach
  rw [List.foldlM_cons, bind_eq_ok]
  constructor
  · rintro ⟨zs, hz, hy⟩
    obtain ⟨g, hg, hm⟩ := bind_eq_ok.mp hz
    obtain ⟨hlt, rfl⟩ := modifyAt_eq_ok.mp hm
    exact ⟨g, hg, hlt, hy⟩
  · rintro ⟨g, hg, hlt, hy⟩
    exact ⟨_, bind_eq_ok.mpr ⟨g, hg, modifyAt_eq_ok.mpr ⟨hlt, rfl⟩⟩, hy⟩

theorem updateEach_length {us : List β} {xs ys : List α} (h : updateEach e key f us xs = .ok ys) :
    ys.length = xs.length := by
  induction us generalizing xs with
  | nil => obtain rfl := Except.ok.inj h; rfl
  | cons u us ih =>
    obtain ⟨g, -, -, hy⟩ := updateEach_cons.mp h
    rw [ih hy, List.length_modify]

theorem updateEach_lt {us : List β} {xs ys : List α} (h : updateEach e key f us xs = .ok ys) :
    ∀ u ∈ us, key u < xs.length := by
  induction us generalizing xs with
  | nil => simp
  | cons u us ih =>
    obtain ⟨g, -, hlt, hy⟩ := updateEach_cons.mp h
    intro v hv
    rcases List.mem_cons.mp hv with rfl | hv
    · exact hlt
    · simpa using ih hy v hv

/-- What every modification keeps, the loop keeps. -/
theorem updateEach_map {γ : Type*} {p : α → γ} {us : List β} {xs ys : List α}
    (h : updateEach e key f us xs = .ok ys)
    (hp : ∀ u ∈ us, ∀ g, f u = .ok g → ∀ x, p (g x) = p x) : ys.map p = xs.map p := by
  induction us generalizing xs with
  | nil => obtain rfl := Except.ok.inj h; rfl
  | cons u us ih =>
    obtain ⟨g, hg, -, hy⟩ := updateEach_cons.mp h
    rw [ih hy fun v hv => hp v (List.mem_cons_of_mem _ hv)]
    refine List.ext_getElem? fun i => ?_
    rw [List.getElem?_map, List.getElem?_map, List.getElem?_modify]
    have hgp := hp u List.mem_cons_self g hg
    cases xs[i]? with
    | none => rfl
    | some x => by_cases hi : key u = i <;> simp [hi, hgp]

/-- The loop succeeds when each step does. -/
theorem updateEach_ok {e : ε} {key : β → Nat} {f : β → Except ε (α → α)} {us : List β}
    {xs : List α} (h : ∀ u ∈ us, (∃ g, f u = .ok g) ∧ key u < xs.length) :
    ∃ ys, updateEach e key f us xs = .ok ys := by
  induction us generalizing xs with
  | nil => exact ⟨xs, rfl⟩
  | cons u us ih =>
    obtain ⟨⟨g, hg⟩, hlt⟩ := h u List.mem_cons_self
    have hrest : ∀ v ∈ us, (∃ g, f v = .ok g) ∧ key v < (xs.modify (key u) g).length := by
      intro v hv
      rw [List.length_modify]
      exact h v (List.mem_cons_of_mem _ hv)
    obtain ⟨ys, hy⟩ := ih hrest
    exact ⟨ys, updateEach_cons.mpr ⟨g, hg, hlt, hy⟩⟩

/-- An element no key names stays. -/
theorem updateEach_getElem?_of_notMem {us : List β} {xs ys : List α}
    (h : updateEach e key f us xs = .ok ys) {i : Nat} (hi : i ∉ us.map key) : ys[i]? = xs[i]? := by
  induction us generalizing xs with
  | nil => obtain rfl := Except.ok.inj h; rfl
  | cons u us ih =>
    obtain ⟨g, -, -, hy⟩ := updateEach_cons.mp h
    rw [List.map_cons, List.mem_cons, not_or] at hi
    rw [ih hy hi.2, List.getElem?_modify_ne g _ (Ne.symm hi.1)]

/-- With keys all different, the element a key names is modified once. -/
theorem updateEach_getElem?_of_mem {us : List β} {xs ys : List α}
    (h : updateEach e key f us xs = .ok ys) (hn : (us.map key).Nodup) {u : β} (hu : u ∈ us) :
    ∃ g, f u = .ok g ∧ ys[key u]? = xs[key u]?.map g := by
  induction us generalizing xs with
  | nil => exact absurd hu (List.not_mem_nil)
  | cons v us ih =>
    obtain ⟨g, hg, -, hy⟩ := updateEach_cons.mp h
    rw [List.map_cons, List.nodup_cons] at hn
    rcases List.mem_cons.mp hu with rfl | hu
    · exact ⟨g, hg, by rw [updateEach_getElem?_of_notMem hy hn.1, List.getElem?_modify_eq]; rfl⟩
    · obtain ⟨g', hg', hy'⟩ := ih hy hn.2 hu
      have hne : key v ≠ key u := fun he => hn.1 (List.mem_map.mpr ⟨u, hu, he.symm⟩)
      rw [List.getElem?_modify_ne g _ hne] at hy'
      exact ⟨g', hg', hy'⟩

/-! ## Other loops -/

theorem foldlM_ok {σ : Type u} {f : σ → β → Except ε σ} {us : List β} {s : σ}
    (h : ∀ s, ∀ u ∈ us, ∃ s', f s u = .ok s') : ∃ s', us.foldlM f s = .ok s' := by
  induction us generalizing s with
  | nil => exact ⟨s, rfl⟩
  | cons u us ih =>
    obtain ⟨s₁, h₁⟩ := h s u List.mem_cons_self
    obtain ⟨s₂, h₂⟩ := ih (s := s₁) fun s v hv => h s v (List.mem_cons_of_mem _ hv)
    exact ⟨s₂, bind_eq_ok.mpr ⟨s₁, h₁, h₂⟩⟩

/-- The loop succeeds when each step does from a state that keeps an invariant. -/
theorem foldlM_ok_of_invariant {σ : Type u} {f : σ → β → Except ε σ} {I : σ → Prop} {us : List β}
    {s : σ} (h : ∀ s, I s → ∀ u ∈ us, ∃ s', f s u = .ok s' ∧ I s') (hs : I s) :
    ∃ s', us.foldlM f s = .ok s' ∧ I s' := by
  induction us generalizing s with
  | nil => exact ⟨s, rfl, hs⟩
  | cons u us ih =>
    obtain ⟨s₁, h₁, hs₁⟩ := h s hs u List.mem_cons_self
    obtain ⟨s₂, h₂, hs₂⟩ := ih (fun s hs v hv => h s hs v (List.mem_cons_of_mem _ hv)) hs₁
    exact ⟨s₂, bind_eq_ok.mpr ⟨s₁, h₁, h₂⟩, hs₂⟩

/-- What every step keeps, the loop keeps. -/
theorem foldlM_invariant {σ : Type u} {f : σ → β → Except ε σ} {I : σ → Prop} {us : List β}
    {s s' : σ} (hstep : ∀ s, ∀ u ∈ us, ∀ s', I s → f s u = .ok s' → I s')
    (h : us.foldlM f s = .ok s') (hs : I s) : I s' := by
  induction us generalizing s with
  | nil => exact Except.ok.inj h ▸ hs
  | cons u us ih =>
    rw [List.foldlM_cons] at h
    obtain ⟨s₁, h₁, h⟩ := bind_eq_ok.mp h
    exact ih (fun s v hv => hstep s v (List.mem_cons_of_mem _ hv)) h
      (hstep s u List.mem_cons_self s₁ hs h₁)

theorem mapM_eq_ok {f : α → Except ε β} {xs : List α} : ∀ {ys : List β},
    xs.mapM f = .ok ys ↔ List.Forall₂ (fun x y => f x = .ok y) xs ys := by
  induction xs with
  | nil =>
    intro ys
    rw [List.forall₂_nil_left_iff, List.mapM_nil]
    exact ⟨fun h => (Except.ok.inj h).symm, fun h => congrArg Except.ok h.symm⟩
  | cons x xs ih =>
    intro ys
    rw [List.mapM_cons, List.forall₂_cons_left_iff, bind_eq_ok]
    constructor
    · rintro ⟨y, hy, h⟩
      obtain ⟨ys', hys, h⟩ := bind_eq_ok.mp h
      obtain rfl := Except.ok.inj h
      exact ⟨y, ys', hy, ih.mp hys, rfl⟩
    · rintro ⟨y, ys', hy, hys, rfl⟩
      exact ⟨y, hy, bind_eq_ok.mpr ⟨ys', ih.mpr hys, rfl⟩⟩

theorem mapM_length {f : α → Except ε β} {xs : List α} {ys : List β} (h : xs.mapM f = .ok ys) :
    ys.length = xs.length :=
  (mapM_eq_ok.mp h).length_eq.symm

theorem mapM_getElem? {f : α → Except ε β} {xs : List α} {ys : List β} (h : xs.mapM f = .ok ys)
    {i : Nat} {y : β} (hy : ys[i]? = some y) : ∃ x, xs[i]? = some x ∧ f x = .ok y := by
  obtain ⟨hi, rfl⟩ := List.getElem?_eq_some_iff.mp hy
  have hx : i < xs.length := mapM_length h ▸ hi
  exact ⟨xs[i], List.getElem?_eq_getElem hx, (List.forall₂_iff_get.mp (mapM_eq_ok.mp h)).2 i hx hi⟩

/-- The map succeeds when each step does. -/
theorem mapM_ok {f : α → Except ε β} {xs : List α} (h : ∀ x ∈ xs, ∃ y, f x = .ok y) :
    ∃ ys, xs.mapM f = .ok ys := by
  induction xs with
  | nil => exact ⟨[], rfl⟩
  | cons x xs ih =>
    obtain ⟨y, hy⟩ := h x List.mem_cons_self
    obtain ⟨ys, hys⟩ := ih fun x' hx' => h x' (List.mem_cons_of_mem _ hx')
    exact ⟨y :: ys, mapM_eq_ok.mpr (.cons hy (mapM_eq_ok.mp hys))⟩

theorem mapM_ok_iff {f : α → Except ε β} {xs : List α} :
    (∃ ys, xs.mapM f = .ok ys) ↔ ∀ x ∈ xs, ∃ y, f x = .ok y := by
  refine ⟨?_, mapM_ok⟩
  rintro ⟨ys, h⟩ x hx
  obtain ⟨i, hi⟩ := List.mem_iff_getElem?.mp hx
  obtain ⟨hlt, rfl⟩ := List.getElem?_eq_some_iff.mp hi
  have hlt' : i < ys.length := by rwa [mapM_length h]
  exact ⟨ys[i], (List.forall₂_iff_get.mp (mapM_eq_ok.mp h)).2 i hlt hlt'⟩

/-- What every step keeps, the whole map keeps. -/
theorem mapM_map {γ : Type*} {p : α → γ} {f : α → Except ε α} (hp : ∀ x y, f x = .ok y → p y = p x)
    {xs ys : List α} (h : xs.mapM f = .ok ys) : ys.map p = xs.map p := by
  induction xs generalizing ys with
  | nil => obtain rfl := Except.ok.inj h; rfl
  | cons x xs ih =>
    rw [List.mapM_cons] at h
    obtain ⟨y, hy, h⟩ := bind_eq_ok.mp h
    obtain ⟨ys', hys, h⟩ := bind_eq_ok.mp h
    obtain rfl := Except.ok.inj h
    rw [List.map_cons, List.map_cons, hp x y hy, ih hys]

end CambriconGst.Lib
