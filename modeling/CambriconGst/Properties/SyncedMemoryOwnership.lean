import CambriconGst.Common.SyncedMemoryFaults

/-!
# Who owns the blocks of a synced memory

* `toCpu_record`, `toMlu_record`, `setHostData_record`, `setDevData_record`: when nothing fails, the
  record changes as in the model with contents
* `reachable_kept`: whatever fails, the blocks that were allocated are freed once or held, and no
  other block is freed
* `flags_describe`: when `malloc` does not return null, the head and the flags say what is held
-/

namespace CambriconGst.SyncedMemory

open Lib

/-! ## One side -/

namespace Side

variable {b : Side} {r : Option Nat} {p : Nat}

/-- The block that the flag claims. -/
def held (b : Side) : List Block :=
  if b.own then (b.ptr.map fun p => { addr := p, callers := b.callers }).toList else []

/-- Whatever fails: the blocks are accounted for, and those that are freed are its own. -/
structure Kept (b : Side) : Prop where
  balanced : Balanced b.calls b.held
  freesOwn : ∀ c : Block, RefOp.release c ∈ b.calls → c.callers = false
  own : b.own = true → b.callers = false

theorem initial_kept : Kept initial where
  balanced := Balanced.nil
  freesOwn := fun _ hc => absurd hc List.not_mem_nil
  own := fun _ => rfl

theorem allocated_kept (h : Kept b) (hp : b.ptr = none) : Kept (b.allocated r) where
  balanced := by
    have hnone : b.held = [] := by
      rw [held, hp]
      split <;> rfl
    have hb := h.balanced
    rw [hnone] at hb
    cases r with
    | none =>
      show Balanced (b.calls ++ []) []
      rwa [List.append_nil]
    | some p => exact hb.add
  freesOwn := by
    intro c hc
    cases r with
    | none => exact h.freesOwn c (by simpa [allocated] using hc)
    | some p => exact h.freesOwn c (by simpa [allocated] using hc)
  own := fun _ => rfl

/-- Freeing what the flag claims. -/
theorem free_kept (h : Kept b) (hown : b.own = true) :
    Balanced b.free.calls [] ∧ ∀ c : Block, RefOp.release c ∈ b.free.calls → c.callers = false := by
  have hb := h.balanced
  rw [held, if_pos hown] at hb
  cases hp : b.ptr with
  | none =>
    have hcalls : b.free.calls = b.calls := by simp [free, hp]
    rw [hp] at hb
    rw [hcalls]
    exact ⟨hb, h.freesOwn⟩
  | some p =>
    have hcalls : b.free.calls = b.calls ++ [.release { addr := p, callers := b.callers }] := by
      simp [free, hp]
    rw [hp] at hb
    rw [hcalls]
    refine ⟨hb.release, fun c hc => ?_⟩
    rcases List.mem_append.mp hc with hc | hc
    · exact h.freesOwn c hc
    · cases List.mem_singleton.mp hc
      exact h.own hown

theorem set_kept (h : Kept b) : Kept (b.set p) := by
  by_cases hown : b.own = true
  · obtain ⟨hb, hf⟩ := free_kept h hown
    have hset : b.set p = { b.free with ptr := some p, own := false, callers := true } := by
      simp only [set, if_pos hown]
    rw [hset]
    exact ⟨hb, hf, fun ho => nomatch ho⟩
  · have hset : b.set p = { b with ptr := some p, own := false, callers := true } := by
      simp only [set, if_neg hown]
    have hb := h.balanced
    rw [held, if_neg hown] at hb
    rw [hset]
    exact ⟨hb, h.freesOwn, fun ho => nomatch ho⟩

theorem held_of_not_own (h : b.own = false) : b.held = [] := by
  rw [held, h]
  rfl

/-- After `cn_syncedmem_free` nothing that it allocated is left. -/
theorem drop_kept (h : Kept b) : Kept b.drop ∧ Balanced b.drop.calls [] := by
  have hb := h.balanced
  cases hown : b.own with
  | false =>
    have hdrop : b.drop = b := by simp [drop, hown]
    rw [held_of_not_own hown] at hb
    rw [hdrop]
    exact ⟨h, hb⟩
  | true =>
    obtain ⟨hb', hf⟩ := free_kept h hown
    cases hp : b.ptr with
    | none =>
      have hdrop : b.drop = b := by simp [drop, hp]
      have hnone : b.held = [] := by
        rw [held, hp]
        split <;> rfl
      rw [hnone] at hb
      rw [hdrop]
      exact ⟨h, hb⟩
    | some p =>
      have hdrop : b.drop = { b.free with own := false } := by simp [drop, hp, hown]
      rw [hdrop]
      exact ⟨⟨hb', hf, fun ho => nomatch ho⟩, hb'⟩

theorem drop_ptr : b.drop.ptr = b.ptr := by
  unfold drop
  split <;> rfl

/-- The flag says whether there is a block that was allocated here. -/
def Described (b : Side) : Prop :=
  b.own = true ↔ ∃ p, b.ptr = some p ∧ b.callers = false

theorem initial_described : Described initial :=
  iff_of_false (by decide) (by rintro ⟨p, hp, -⟩; cases hp)

/-- An allocation is described unless it failed and was not looked at. -/
theorem allocated_described_iff : Described (b.allocated r) ↔ r ≠ none := by
  cases r with
  | none =>
    refine iff_of_false (fun h => ?_) (by simp)
    obtain ⟨p, hp, -⟩ := h.mp rfl
    cases hp
  | some p => exact iff_of_true (iff_of_true rfl ⟨p, rfl, rfl⟩) (by simp)

theorem set_described : Described (b.set p) := by
  refine iff_of_false ?_ ?_
  · simp [set]
  · rintro ⟨q, -, hq⟩
    simp [set] at hq

@[simp]
theorem set_ptr : (b.set p).ptr = some p :=
  rfl

end Side

/-! ## Without faults -/

namespace Faulty

variable {s t : Faulty} {env : Env} {l : Label}

/-- Nothing fails, and the allocations give the blocks that they give in the heaps. -/
def Env.good (w : World) : Env where
  malloc := some w.host.brk
  allocMlu := some w.dev.brk
  memcpy := true

theorem memcpyD2H_mem {w w' : World} {p : Nat} (h : memcpyD2H w p = some w') :
    w'.mem = { w.mem with head := .synced } := by
  unfold memcpyD2H at h
  split at h
  · cases h
  · split at h
    · cases h
    · cases h
      rfl

theorem memcpyH2D_mem {w w' : World} {p : Nat} (h : memcpyH2D w p = some w') :
    w'.mem = { w.mem with head := .synced } := by
  unfold memcpyH2D at h
  split at h
  · cases h
  · split at h
    · cases h
    · cases h
      rfl

theorem memcpy_record {mem : GstSyncedMemory} (he : env.memcpy = true)
    (h : mem = { s.record with head := .synced }) :
    (s.memcpy env).1 = true ∧ (s.memcpy env).2.record = mem := by
  rw [memcpy, if_pos he, h]
  exact ⟨rfl, rfl⟩

theorem toCpu_record {w w' : World} (hs : s.record = w.mem)
    (h : SyncedMemory.toCpu w = some w') :
    (s.toCpu (Env.good w)).1 = true ∧ (s.toCpu (Env.good w)).2.record = w'.mem := by
  obtain ⟨hostHeap, devHeap, mem⟩ := w
  obtain rfl : s.record = mem := hs
  unfold SyncedMemory.toCpu at h
  unfold toCpu
  cases hcase : s.head with
  | uninitialized =>
    simp only [record, hcase] at h
    cases h
    exact ⟨rfl, rfl⟩
  | atMlu =>
    cases hptr : s.host.ptr with
    | none =>
      simp only [record, hcase, hptr] at h
      exact memcpy_record rfl (memcpyD2H_mem h)
    | some p =>
      simp only [record, hcase, hptr] at h
      refine memcpy_record rfl ((memcpyD2H_mem h).trans ?_)
      rw [record, hptr]
  | atCpu =>
    simp only [record, hcase] at h
    cases h
    exact ⟨rfl, by rw [record, hcase]⟩
  | synced =>
    simp only [record, hcase] at h
    cases h
    exact ⟨rfl, by rw [record, hcase]⟩

theorem toMlu_record {w w' : World} (hs : s.record = w.mem)
    (h : SyncedMemory.toMlu w = some w') :
    (s.toMlu (Env.good w)).1 = true ∧ (s.toMlu (Env.good w)).2.record = w'.mem := by
  obtain ⟨hostHeap, devHeap, mem⟩ := w
  obtain rfl : s.record = mem := hs
  unfold SyncedMemory.toMlu at h
  unfold toMlu
  cases hcase : s.head with
  | uninitialized =>
    simp only [record, hcase] at h
    cases h
    exact ⟨rfl, rfl⟩
  | atCpu =>
    cases hptr : s.dev.ptr with
    | none =>
      simp only [record, hcase, hptr] at h
      exact memcpy_record rfl (memcpyH2D_mem h)
    | some p =>
      simp only [record, hcase, hptr] at h
      refine memcpy_record rfl ((memcpyH2D_mem h).trans ?_)
      rw [record, hptr]
  | atMlu =>
    simp only [record, hcase] at h
    cases h
    exact ⟨rfl, by rw [record, hcase]⟩
  | synced =>
    simp only [record, hcase] at h
    cases h
    exact ⟨rfl, by rw [record, hcase]⟩

/-- The operation of the model with contents; a mutable getter without what is written then. -/
def Label.good (w : World) : Label → Option (Reply × World) × Label
  | .setHostData data => (SyncedMemory.setHostData w data, .setHostData data)
  | .setDevData data => (SyncedMemory.setDevData w data, .setDevData data)
  | .getHostData _ => (SyncedMemory.getHostData w, .getHostData (Env.good w))
  | .getDevData _ => (SyncedMemory.getDevData w, .getDevData (Env.good w))
  | .getMutableHostData _ => (SyncedMemory.getMutableHostData w, .getMutableHostData (Env.good w))
  | .getMutableDevData _ => (SyncedMemory.getMutableDevData w, .getMutableDevData (Env.good w))
  | .free => (none, .free)

/-- **When nothing fails**, an operation gives what it gives in the model with contents. -/
theorem exec_record {w w' : World} {r : Reply} (hs : s.record = w.mem)
    (h : (l.good w).1 = some (r, w')) :
    (s.exec (l.good w).2).1 = .returned r ∧ (s.exec (l.good w).2).2.record = w'.mem := by
  have hptr : ∀ {s : Faulty} {w : World}, s.record = w.mem →
      s.host.ptr = w.mem.hostPtr ∧ s.dev.ptr = w.mem.devPtr := fun h =>
    ⟨congrArg GstSyncedMemory.hostPtr h, congrArg GstSyncedMemory.devPtr h⟩
  -- nothing fails, so that each call takes the branch it has in the other model
  cases l with
  | setHostData data =>
    cases data with
    | none =>
      cases h
      refine ⟨rfl, ?_⟩
      show { s.record with errMsg := "data is NULL." } = _
      rw [hs]
      rfl
    | some p =>
      unfold Label.good SyncedMemory.setHostData at h
      dsimp only at h
      split at h
      · cases h
      · cases h
        refine ⟨rfl, ?_⟩
        show { s.record with hostPtr := some p, head := .atCpu, ownHostData := false } = _
        rw [hs]
  | setDevData data =>
    cases data with
    | none =>
      cases h
      refine ⟨rfl, ?_⟩
      show { s.record with errMsg := "data is NULL." } = _
      rw [hs]
      rfl
    | some p =>
      unfold Label.good SyncedMemory.setDevData at h
      dsimp only at h
      split at h
      · cases h
      · cases h
        refine ⟨rfl, ?_⟩
        show { s.record with devPtr := some p, head := .atMlu, ownDevData := false } = _
        rw [hs]
  | getHostData env =>
    obtain ⟨u, hu, heq⟩ := Option.map_eq_some_iff.mp h
    cases heq
    obtain ⟨hok, hrec⟩ := toCpu_record hs hu
    refine ⟨?_, hrec⟩
    show (if (s.toCpu (Env.good w)).1 then _ else _) = _
    rw [if_pos hok, (hptr hrec).1]
  | getDevData env =>
    obtain ⟨u, hu, heq⟩ := Option.map_eq_some_iff.mp h
    cases heq
    obtain ⟨hok, hrec⟩ := toMlu_record hs hu
    refine ⟨?_, hrec⟩
    show (if (s.toMlu (Env.good w)).1 then _ else _) = _
    rw [if_pos hok, (hptr hrec).2]
  | getMutableHostData env =>
    obtain ⟨u, hu, heq⟩ := Option.map_eq_some_iff.mp h
    cases heq
    obtain ⟨hok, hrec⟩ := toCpu_record hs hu
    show (s.getMutableHostData (Env.good w)).1 = _ ∧ (s.getMutableHostData (Env.good w)).2.record = _
    rw [getMutableHostData, if_pos hok, (hptr hrec).1]
    refine ⟨rfl, ?_⟩
    show { (s.toCpu (Env.good w)).2.record with head := .atCpu } = _
    rw [hrec]
    rfl
  | getMutableDevData env =>
    obtain ⟨u, hu, heq⟩ := Option.map_eq_some_iff.mp h
    cases heq
    obtain ⟨hok, hrec⟩ := toMlu_record hs hu
    show (s.getMutableDevData (Env.good w)).1 = _ ∧ (s.getMutableDevData (Env.good w)).2.record = _
    rw [getMutableDevData, if_pos hok, (hptr hrec).2]
    refine ⟨rfl, ?_⟩
    show { (s.toMlu (Env.good w)).2.record with head := .atMlu } = _
    rw [hrec]
    rfl
  | free => cases h

/-! ## What an operation does -/

/-- The data is not on the host, and there is no block for it. -/
def NeedsMalloc (s : Faulty) : Prop :=
  s.head = .uninitialized ∨ s.head = .atMlu ∧ s.host.ptr = none

/-- Where the head may go when the data is copied to the host. -/
def HeadToCpu (head head' : CNSyncHead) : Prop :=
  head' = head ∨ head = .uninitialized ∧ head' = .atCpu ∨ head = .atMlu ∧ head' = .synced

/-- Where the head may go when the data is copied to the device. -/
def HeadToMlu (head head' : CNSyncHead) : Prop :=
  head' = head ∨ head = .uninitialized ∧ head' = .atMlu ∨ head = .atCpu ∧ head' = .synced

/-- What `to_cpu` does: an allocation if it is needed, and nothing on the device. -/
structure ToCpu (s : Faulty) (env : Env) (ok : Bool) (t : Faulty) : Prop where
  host : NeedsMalloc s ∧ t.host = s.host.allocated env.malloc ∨ ¬NeedsMalloc s ∧ t.host = s.host
  dev : t.dev = s.dev
  deleted : t.deleted = s.deleted
  head : HeadToCpu s.head t.head
  initialized : t.head ≠ .uninitialized
  ready : ok = true → t.head = .atCpu ∨ t.head = .synced

theorem toCpu_spec (s : Faulty) (env : Env) : ToCpu s env (s.toCpu env).1 (s.toCpu env).2 := by
  obtain ⟨⟨ptr, own, callers, calls⟩, dev, head, size, errMsg, deleted⟩ := s
  obtain ⟨malloc, allocMlu, copies⟩ := env
  cases head with
  | uninitialized =>
    exact ⟨.inl ⟨.inl rfl, rfl⟩, rfl, rfl, .inr (.inl ⟨rfl, rfl⟩), (fun h => nomatch h),
      fun _ => .inl rfl⟩
  | atMlu =>
    cases ptr with
    | none =>
      cases copies with
      | true =>
        exact ⟨.inl ⟨.inr ⟨rfl, rfl⟩, rfl⟩, rfl, rfl, .inr (.inr ⟨rfl, rfl⟩), (fun h => nomatch h),
          fun _ => .inr rfl⟩
      | false =>
        exact ⟨.inl ⟨.inr ⟨rfl, rfl⟩, rfl⟩, rfl, rfl, .inl rfl, (fun h => nomatch h),
          (fun h => nomatch h)⟩
    | some p =>
      cases copies with
      | true =>
        exact ⟨.inr ⟨by simp [NeedsMalloc], rfl⟩, rfl, rfl, .inr (.inr ⟨rfl, rfl⟩),
          (fun h => nomatch h), fun _ => .inr rfl⟩
      | false =>
        exact ⟨.inr ⟨by simp [NeedsMalloc], rfl⟩, rfl, rfl, .inl rfl, (fun h => nomatch h),
          (fun h => nomatch h)⟩
  | atCpu =>
    exact ⟨.inr ⟨by simp [NeedsMalloc], rfl⟩, rfl, rfl, .inl rfl, (fun h => nomatch h),
      fun _ => .inl rfl⟩
  | synced =>
    exact ⟨.inr ⟨by simp [NeedsMalloc], rfl⟩, rfl, rfl, .inl rfl, (fun h => nomatch h),
      fun _ => .inr rfl⟩

/-- What `to_mlu` does: a device block when there is none, if that can be had. -/
structure ToMlu (s : Faulty) (ok : Bool) (t : Faulty) : Prop where
  dev : (s.head = .uninitialized ∨ s.dev.ptr = none) ∧ (∃ p, t.dev = s.dev.allocated (some p)) ∨
    t.dev = s.dev ∧ (t.head = s.head ∨ s.dev.ptr ≠ none)
  host : t.host = s.host
  deleted : t.deleted = s.deleted
  head : HeadToMlu s.head t.head
  initialized : t.head = .uninitialized → t = s
  ready : ok = true → t.head = .atMlu ∨ t.head = .synced

theorem toMlu_spec (s : Faulty) (env : Env) : ToMlu s (s.toMlu env).1 (s.toMlu env).2 := by
  obtain ⟨host, ⟨ptr, own, callers, calls⟩, head, size, errMsg, deleted⟩ := s
  obtain ⟨malloc, allocMlu, copies⟩ := env
  cases head with
  | uninitialized =>
    cases allocMlu with
    | none =>
      exact ⟨.inr ⟨rfl, .inl rfl⟩, rfl, rfl, .inl rfl, fun _ => rfl, (fun h => nomatch h)⟩
    | some p =>
      exact ⟨.inl ⟨.inl rfl, p, rfl⟩, rfl, rfl, .inr (.inl ⟨rfl, rfl⟩), (fun h => nomatch h),
        fun _ => .inl rfl⟩
  | atCpu =>
    cases ptr with
    | none =>
      cases allocMlu with
      | none =>
        exact ⟨.inr ⟨rfl, .inl rfl⟩, rfl, rfl, .inl rfl, fun _ => rfl, (fun h => nomatch h)⟩
      | some p =>
        cases copies with
        | true =>
          exact ⟨.inl ⟨.inr rfl, p, rfl⟩, rfl, rfl, .inr (.inr ⟨rfl, rfl⟩), (fun h => nomatch h),
            fun _ => .inr rfl⟩
        | false =>
          exact ⟨.inl ⟨.inr rfl, p, rfl⟩, rfl, rfl, .inl rfl, (fun h => nomatch h),
            (fun h => nomatch h)⟩
    | some p =>
      cases copies with
      | true =>
        exact ⟨.inr ⟨rfl, .inr (Option.some_ne_none p)⟩, rfl, rfl, .inr (.inr ⟨rfl, rfl⟩),
          (fun h => nomatch h), fun _ => .inr rfl⟩
      | false =>
        exact ⟨.inr ⟨rfl, .inl rfl⟩, rfl, rfl, .inl rfl, fun _ => rfl, (fun h => nomatch h)⟩
  | atMlu =>
    exact ⟨.inr ⟨rfl, .inl rfl⟩, rfl, rfl, .inl rfl, fun _ => rfl, fun _ => .inl rfl⟩
  | synced =>
    exact ⟨.inr ⟨rfl, .inl rfl⟩, rfl, rfl, .inl rfl, fun _ => rfl, fun _ => .inr rfl⟩

/-! ## Blocks -/

/-- Whatever fails: the blocks of each side are accounted for. -/
structure Kept (s : Faulty) : Prop where
  host : s.host.Kept
  dev : s.dev.Kept
  untouched : s.head = .uninitialized → s.host.ptr = none ∧ s.dev.ptr = none
  dropped : s.deleted = true → Balanced s.host.calls [] ∧ Balanced s.dev.calls []

theorem initial_kept (size : Nat) : Kept (initial size) where
  host := Side.initial_kept
  dev := Side.initial_kept
  untouched := fun _ => ⟨rfl, rfl⟩
  dropped := fun h => nomatch h

theorem toCpu_kept {ok : Bool} (h : Kept s) (hlive : s.deleted = false) (ht : ToCpu s env ok t) :
    Kept t where
  host := by
    rcases ht.host with ⟨hneeds, heq⟩ | ⟨-, heq⟩
    · rw [heq]
      refine Side.allocated_kept h.host ?_
      rcases hneeds with hhead | ⟨-, hptr⟩
      · exact (h.untouched hhead).1
      · exact hptr
    · rw [heq]
      exact h.host
  dev := ht.dev ▸ h.dev
  untouched := fun hu => absurd hu ht.initialized
  dropped := by
    rw [ht.deleted, hlive]
    exact fun hd => nomatch hd

theorem toMlu_kept {ok : Bool} (h : Kept s) (hlive : s.deleted = false) (ht : ToMlu s ok t) :
    Kept t where
  host := ht.host ▸ h.host
  dev := by
    rcases ht.dev with ⟨hneeds, p, heq⟩ | ⟨heq, -⟩
    · rw [heq]
      refine Side.allocated_kept h.dev ?_
      rcases hneeds with hhead | hptr
      · exact (h.untouched hhead).2
      · exact hptr
    · rw [heq]
      exact h.dev
  untouched := by
    intro hu
    obtain rfl := ht.initialized hu
    exact h.untouched hu
  dropped := by
    rw [ht.deleted, hlive]
    exact fun hd => nomatch hd

theorem setHead_kept {head : CNSyncHead} (h : Kept s) (hh : head ≠ .uninitialized) :
    Kept { s with head } :=
  ⟨h.host, h.dev, fun hu => absurd hu hh, h.dropped⟩

theorem set_kept (hlive : s.deleted = false) {b c : Side} (hb : b.Kept)
    (hc : c.Kept) {head : CNSyncHead} (hh : head ≠ .uninitialized) :
    Kept { s with host := b, dev := c, head } where
  host := hb
  dev := hc
  untouched := fun hu => absurd hu hh
  dropped := by
    rw [hlive]
    exact fun hd => nomatch hd

/-- **What an operation keeps**, whatever fails. -/
theorem exec_kept (h : Kept s) (hlive : s.deleted = false) (l : Label) : Kept (s.exec l).2 := by
  cases l with
  | setHostData data =>
    cases data with
    | none => exact ⟨h.host, h.dev, h.untouched, h.dropped⟩
    | some p => exact set_kept hlive (Side.set_kept h.host) h.dev (by decide)
  | setDevData data =>
    cases data with
    | none => exact ⟨h.host, h.dev, h.untouched, h.dropped⟩
    | some p => exact set_kept hlive h.host (Side.set_kept h.dev) (by decide)
  | getHostData env => exact toCpu_kept h hlive (toCpu_spec s env)
  | getDevData env => exact toMlu_kept h hlive (toMlu_spec s env)
  | getMutableHostData env =>
    have hk := toCpu_kept h hlive (toCpu_spec s env)
    show Kept (s.getMutableHostData env).2
    unfold getMutableHostData
    dsimp only
    split
    · exact setHead_kept hk (by decide)
    · exact hk
  | getMutableDevData env =>
    have hk := toMlu_kept h hlive (toMlu_spec s env)
    show Kept (s.getMutableDevData env).2
    unfold getMutableDevData
    dsimp only
    split
    · exact setHead_kept hk (by decide)
    · exact hk
  | free =>
    obtain ⟨hhost, hhost'⟩ := Side.drop_kept h.host
    obtain ⟨hdev, hdev'⟩ := Side.drop_kept h.dev
    refine ⟨hhost, hdev, fun hu => ?_, fun _ => ⟨hhost', hdev'⟩⟩
    show s.host.drop.ptr = none ∧ s.dev.drop.ptr = none
    rw [Side.drop_ptr, Side.drop_ptr]
    exact h.untouched hu

/-! ## The head and the flags -/

/-- The head claims no side without a block, and the flags describe the blocks held. -/
structure Sound (s : Faulty) : Prop where
  host : s.head = .atCpu ∨ s.head = .synced → s.host.ptr ≠ none
  dev : s.head = .atMlu ∨ s.head = .synced → s.dev.ptr ≠ none
  hostFlag : s.host.Described
  devFlag : s.dev.Described

/-- When the operation calls `malloc`, it does not return null. -/
def MallocReturns (s : Faulty) : Label → Prop
  | .getHostData env | .getMutableHostData env => NeedsMalloc s → env.malloc ≠ none
  | _ => True

theorem initial_sound (size : Nat) : Sound (initial size) where
  host := by rintro (h | h) <;> cases h
  dev := by rintro (h | h) <;> cases h
  hostFlag := Side.initial_described
  devFlag := Side.initial_described

/-- A null pointer that was stored leaves a flag without a block. -/
theorem malloc_of_described {ok : Bool} (ht : ToCpu s env ok t) (hd : t.host.Described)
    (hneeds : NeedsMalloc s) : env.malloc ≠ none := by
  rcases ht.host with ⟨-, heq⟩ | ⟨hnot, -⟩
  · exact Side.allocated_described_iff.mp (heq ▸ hd)
  · exact absurd hneeds hnot

theorem toCpu_sound_iff {ok : Bool} (h : Sound s) (ht : ToCpu s env ok t) :
    Sound t ↔ (NeedsMalloc s → env.malloc ≠ none) := by
  constructor
  · intro hs
    exact malloc_of_described ht hs.hostFlag
  · intro hm
    refine ⟨?_, ?_, ?_, ht.dev ▸ h.devFlag⟩
    · intro hhead
      rcases ht.host with ⟨hneeds, heq⟩ | ⟨hnot, heq⟩
      · rw [heq]
        exact hm hneeds
      · rw [heq]
        rcases ht.head with hsame | ⟨hu, -⟩ | ⟨hmlu, -⟩
        · exact h.host (hsame ▸ hhead)
        · exact absurd (.inl hu) hnot
        · exact fun hnone => hnot (.inr ⟨hmlu, hnone⟩)
    · intro hhead
      rw [ht.dev]
      rcases ht.head with hsame | ⟨-, hcpu⟩ | ⟨hmlu, -⟩
      · exact h.dev (hsame ▸ hhead)
      · rw [hcpu] at hhead
        rcases hhead with hhead | hhead <;> cases hhead
      · exact h.dev (.inl hmlu)
    · rcases ht.host with ⟨hneeds, heq⟩ | ⟨-, heq⟩
      · rw [heq]
        exact Side.allocated_described_iff.mpr (hm hneeds)
      · rw [heq]
        exact h.hostFlag

theorem toMlu_sound {ok : Bool} (h : Sound s) (ht : ToMlu s ok t) : Sound t where
  host := by
    intro hhead
    rw [ht.host]
    rcases ht.head with hsame | ⟨-, hmlu⟩ | ⟨hcpu, -⟩
    · exact h.host (hsame ▸ hhead)
    · rw [hmlu] at hhead
      rcases hhead with hhead | hhead <;> cases hhead
    · exact h.host (.inl hcpu)
  dev := by
    intro hhead
    rcases ht.dev with ⟨-, p, heq⟩ | ⟨heq, hsame | hptr⟩
    · rw [heq]
      exact Option.some_ne_none p
    · rw [heq]
      exact h.dev (hsame ▸ hhead)
    · rw [heq]
      exact hptr
  hostFlag := ht.host ▸ h.hostFlag
  devFlag := by
    rcases ht.dev with ⟨-, p, heq⟩ | ⟨heq, -⟩
    · rw [heq]
      exact Side.allocated_described_iff.mpr (Option.some_ne_none p)
    · rw [heq]
      exact h.devFlag

/-- A mutable getter claims the side of the pointer that it returns. -/
theorem toCpu_mutable_sound_iff (h : Sound s) (ht : ToCpu s env true t) :
    Sound { t with head := .atCpu } ↔ (NeedsMalloc s → env.malloc ≠ none) := by
  constructor
  · intro hs
    exact malloc_of_described ht hs.hostFlag
  · intro hm
    have hs := (toCpu_sound_iff h ht).mpr hm
    exact ⟨fun _ => hs.host (ht.ready rfl), (by rintro (hh | hh) <;> cases hh), hs.hostFlag,
      hs.devFlag⟩

theorem toMlu_mutable_sound (h : Sound s) (ht : ToMlu s true t) :
    Sound { t with head := .atMlu } := by
  have hs := toMlu_sound h ht
  exact ⟨(by rintro (hh | hh) <;> cases hh), fun _ => hs.dev (ht.ready rfl), hs.hostFlag, hs.devFlag⟩

/-- **An operation leaves the head and the flags right** just when `malloc` does not fail. -/
theorem exec_sound_iff (h : Sound s) (hl : l ≠ .free) :
    Sound (s.exec l).2 ↔ MallocReturns s l := by
  cases l with
  | setHostData data =>
    refine iff_of_true ?_ trivial
    cases data with
    | none => exact ⟨h.host, h.dev, h.hostFlag, h.devFlag⟩
    | some p =>
      exact ⟨fun _ => Option.some_ne_none p, (by rintro (hh | hh) <;> cases hh), Side.set_described,
        h.devFlag⟩
  | setDevData data =>
    refine iff_of_true ?_ trivial
    cases data with
    | none => exact ⟨h.host, h.dev, h.hostFlag, h.devFlag⟩
    | some p =>
      exact ⟨(by rintro (hh | hh) <;> cases hh), fun _ => Option.some_ne_none p, h.hostFlag,
        Side.set_described⟩
  | getHostData env => exact toCpu_sound_iff h (toCpu_spec s env)
  | getDevData env => exact iff_of_true (toMlu_sound h (toMlu_spec s env)) trivial
  | getMutableHostData env =>
    have ht := toCpu_spec s env
    show Sound (s.getMutableHostData env).2 ↔ _
    unfold getMutableHostData
    dsimp only
    split
    · next hok =>
      rw [hok] at ht
      exact toCpu_mutable_sound_iff h ht
    · exact toCpu_sound_iff h ht
  | getMutableDevData env =>
    have ht := toMlu_spec s env
    refine iff_of_true ?_ trivial
    show Sound (s.getMutableDevData env).2
    unfold getMutableDevData
    dsimp only
    split
    · next hok =>
      rw [hok] at ht
      exact toMlu_mutable_sound h ht
    · exact toMlu_sound h ht
  | free => exact absurd rfl hl

/-! ## Runs -/

/-- A new memory. -/
def New (s : Faulty) : Prop :=
  ∃ size, 0 < size ∧ s = initial size

theorem next_eq (h : next s l = some t) : s.deleted = false ∧ t = (s.exec l).2 := by
  unfold next at h
  split at h
  · cases h
  · next hlive =>
    cases h
    exact ⟨by simpa using hlive, rfl⟩

/--
**Blocks are freed once.**

Whatever fails in a run: on each side every block that was allocated is freed once or is the one
that the flag claims, and only blocks that were allocated here are freed; after `cn_syncedmem_free`
none is left.
-/
theorem blocks_freed_once (h : Reachable New (System.Step next) s) :
    (Balanced s.host.calls s.host.held ∧ Balanced s.dev.calls s.dev.held) ∧
      (∀ c : Block, RefOp.release c ∈ s.host.calls ++ s.dev.calls → c.callers = false) ∧
      (s.deleted = true → Balanced s.host.calls [] ∧ Balanced s.dev.calls []) := by
  have hk : Kept s := by
    refine h.invariant ?_ ?_
    · rintro s ⟨size, -, rfl⟩
      exact initial_kept size
    · rintro s t hk ⟨l, -, hl⟩
      obtain ⟨hlive, rfl⟩ := next_eq hl
      exact exec_kept hk hlive l
  refine ⟨⟨hk.host.balanced, hk.dev.balanced⟩, fun c hc => ?_, hk.dropped⟩
  rcases List.mem_append.mp hc with hc | hc
  · exact hk.host.freesOwn c hc
  · exact hk.dev.freesOwn c hc

/-- The head and the flags are right as long as the memory is there. -/
def Right (s : Faulty) : Prop :=
  s.deleted = false → Sound s

theorem exec_deleted (hl : l ≠ .free) : (s.exec l).2.deleted = s.deleted := by
  cases l with
  | setHostData data => cases data <;> rfl
  | setDevData data => cases data <;> rfl
  | getHostData env => exact (toCpu_spec s env).deleted
  | getDevData env => exact (toMlu_spec s env).deleted
  | getMutableHostData env =>
    show (s.getMutableHostData env).2.deleted = _
    unfold getMutableHostData
    dsimp only
    split <;> exact (toCpu_spec s env).deleted
  | getMutableDevData env =>
    show (s.getMutableDevData env).2.deleted = _
    unfold getMutableDevData
    dsimp only
    split <;> exact (toMlu_spec s env).deleted
  | free => exact absurd rfl hl

theorem next_right_iff (hs : Right s) (h : next s l = some t) :
    Right t ↔ MallocReturns s l := by
  obtain ⟨hlive, rfl⟩ := next_eq h
  by_cases hl : l = .free
  · subst hl
    exact iff_of_true (fun hd => nomatch hd) trivial
  · rw [Right, exec_deleted hl, hlive, ← exec_sound_iff (hs hlive) hl]
    exact ⟨fun hr => hr rfl, fun hr _ => hr⟩

/--
**Ownership of a synced memory.**

In a run in which `malloc` does not return null, whatever else fails: each block that was allocated
is freed once or is the one that its flag claims, no other block is freed, and none is left after
`cn_syncedmem_free`; and as long as the memory is there, the head claims no side without a block,
and the flags describe the blocks held. After such a run the next operation keeps this just when
`malloc` does not return null in it.
-/
theorem ownership_kept (h : Reachable New (System.StepWhere next MallocReturns) s) :
    ((Balanced s.host.calls s.host.held ∧ Balanced s.dev.calls s.dev.held) ∧
      (∀ c : Block, RefOp.release c ∈ s.host.calls ++ s.dev.calls → c.callers = false) ∧
      (s.deleted = true → Balanced s.host.calls [] ∧ Balanced s.dev.calls [])) ∧
    Right s ∧ ∀ l t, next s l = some t → (Right t ↔ MallocReturns s l) := by
  have hright : Right s := by
    refine h.invariant (I := Right) ?_ ?_
    · rintro s ⟨size, -, rfl⟩ -
      exact initial_sound size
    · rintro s t hs ⟨l, hm, hl⟩
      exact (next_right_iff hs hl).mpr hm
  exact ⟨blocks_freed_once (System.reachable_of_stepWhere h), hright,
    fun l t hl => next_right_iff hright hl⟩

/-- A block that is allocated on each side, and the memory is deleted. -/
theorem ownership_kept_sample : ∃ s : Faulty, s.deleted = true ∧
    s.host.calls = [.add ⟨4096, false⟩, .release ⟨4096, false⟩] ∧
    Balanced s.host.calls [] ∧ Balanced s.dev.calls [] := by
  have hhost : Reachable New (System.StepWhere next MallocReturns)
      ((initial 8).exec (.getMutableHostData ⟨some 4096, none, true⟩)).2 :=
    Reachable.tail (Reachable.of_init (s := initial 8) ⟨8, by decide, rfl⟩)
      ⟨.getMutableHostData ⟨some 4096, none, true⟩, fun _ => Option.some_ne_none _, rfl⟩
  have hdev := hhost.tail (t := (((initial 8).exec
      (.getMutableHostData ⟨some 4096, none, true⟩)).2.exec
        (.getDevData ⟨none, some 8192, true⟩)).2)
      ⟨.getDevData ⟨none, some 8192, true⟩, trivial, rfl⟩
  have hfree := hdev.tail (t := ((((initial 8).exec
      (.getMutableHostData ⟨some 4096, none, true⟩)).2.exec
        (.getDevData ⟨none, some 8192, true⟩)).2.exec .free).2) ⟨.free, trivial, rfl⟩
  obtain ⟨⟨-, -, hdel⟩, -⟩ := ownership_kept hfree
  exact ⟨_, rfl, rfl, hdel rfl⟩

/-- `malloc` returns null for a new memory: the head claims data on the host, where there is none. -/
theorem null_claimed : ∃ t, next (initial 8) (.getHostData ⟨none, none, true⟩) = some t ∧
    t.head = .atCpu ∧ t.host.ptr = none ∧ t.host.own = true ∧ ¬Right t := by
  refine ⟨_, rfl, rfl, rfl, rfl, fun hr => ?_⟩
  exact (hr rfl).host (.inl rfl) rfl

end Faulty

end CambriconGst.SyncedMemory
