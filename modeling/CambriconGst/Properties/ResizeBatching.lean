import CambriconGst.Easybang.ResizeBatching

/-!
# Properties of the batches of resize and convert

* `input_storeEach`: what the loop of `SyncOneOutput` puts into the arrays, slot by slot
* `run_kept`: what every call keeps, every run of calls keeps
* `syncOneOutput_takes`: a call with a queue and something to do takes a batch, and dispatches it
  unless a copy fails
* `batches_in_order`: the batches without their padding are the inputs in order, and the last one is
  what `GetLastBatchInput` gives back
-/

namespace CambriconGst.Easybang

open Lib Lib.Batching

variable {arrays : BatchArrays} {inputData : InputData} {cache : List InputData}

/-! ## The arrays -/

namespace BatchArrays

variable {bi bj n : Nat}

theorem input_store : (arrays.store bi inputData).input bi = inputData.reported := by
  have hw : bi * 2 + 0 ≠ bi * 2 + 1 := by omega
  have hx : bi * 4 + 0 ≠ bi * 4 + 1 ∧ bi * 4 + 0 ≠ bi * 4 + 2 ∧ bi * 4 + 0 ≠ bi * 4 + 3 := by omega
  have hy : bi * 4 + 1 ≠ bi * 4 + 2 ∧ bi * 4 + 1 ≠ bi * 4 + 3 := by omega
  have hz : bi * 4 + 2 ≠ bi * 4 + 3 := by omega
  simp only [input, store, InputData.reported, Function.update_self, Function.update_of_ne hw,
    Function.update_of_ne hx.1, Function.update_of_ne hx.2.1, Function.update_of_ne hx.2.2,
    Function.update_of_ne hy.1, Function.update_of_ne hy.2, Function.update_of_ne hz]

/-- The slots of the other inputs are elsewhere. -/
theorem input_store_of_ne (h : bj ≠ bi) :
    (arrays.store bi inputData).input bj = arrays.input bj := by
  have hwhs : ∀ k < 2,
      (arrays.store bi inputData).srcWhs (bj * 2 + k) = arrays.srcWhs (bj * 2 + k) := by
    intro k hk
    dsimp only [store]
    rw [Function.update_of_ne (by omega), Function.update_of_ne (by omega)]
  have hrois : ∀ k < 4,
      (arrays.store bi inputData).srcRois (bj * 4 + k) = arrays.srcRois (bj * 4 + k) := by
    intro k hk
    dsimp only [store]
    rw [Function.update_of_ne (by omega), Function.update_of_ne (by omega),
      Function.update_of_ne (by omega), Function.update_of_ne (by omega)]
  have hy : (arrays.store bi inputData).yPtrs bj = arrays.yPtrs bj := Function.update_of_ne h _ _
  have huv : (arrays.store bi inputData).uvPtrs bj = arrays.uvPtrs bj :=
    Function.update_of_ne h _ _
  simp only [input, hy, huv, hwhs 0 (by decide), hwhs 1 (by decide), hrois 0 (by decide),
    hrois 1 (by decide), hrois 2 (by decide), hrois 3 (by decide)]

theorem storeEach_snd : (arrays.storeEach bi n cache).2 = cache.drop n := by
  induction n generalizing arrays bi cache with
  | zero => rfl
  | succ n ih =>
    cases cache with
    | nil => rfl
    | cons d cache => exact ih

theorem input_storeEach_of_lt (h : bj < bi) :
    (arrays.storeEach bi n cache).1.input bj = arrays.input bj := by
  induction n generalizing arrays bi cache with
  | zero => rfl
  | succ n ih =>
    cases cache with
    | nil => rfl
    | cons d cache =>
      rw [storeEach, ih (by omega), input_store_of_ne (by omega)]

/-- **The loop of `SyncOneOutput`** puts the inputs into the slots in order. -/
theorem input_storeEach (arrays : BatchArrays) (bi : Nat) {k : Nat} (hk : k < n) {d : InputData}
    (hd : cache[k]? = some d) :
    (arrays.storeEach bi n cache).1.input (bi + k) = d.reported := by
  induction n generalizing arrays bi cache k with
  | zero => exact absurd hk (Nat.not_lt_zero k)
  | succ n ih =>
    cases cache with
    | nil => cases hd
    | cons c cache =>
      rw [storeEach]
      cases k with
      | zero =>
        obtain rfl : c = d := Option.some.inj hd
        show ((arrays.store bi c).storeEach (bi + 1) n cache).1.input bi = c.reported
        rw [input_storeEach_of_lt (Nat.lt_add_one bi), input_store]
      | succ k =>
        have hih := ih (arrays.store bi c) (bi + 1) (Nat.lt_of_succ_lt_succ hk) hd
        rwa [Nat.add_right_comm, Nat.add_assoc bi k 1] at hih

theorem inputs_storeEach (h : n ≤ cache.length) :
    (arrays.storeEach 0 n cache).1.inputs n = (cache.take n).map InputData.reported := by
  refine List.ext_getElem? fun k => ?_
  by_cases hk : k < n
  · have hkc : k < cache.length := Nat.lt_of_lt_of_le hk h
    have hslot := input_storeEach arrays 0 hk (List.getElem?_eq_getElem hkc)
    rw [Nat.zero_add] at hslot
    rw [inputs, List.getElem?_map, List.getElem?_map, List.getElem?_range hk,
      List.getElem?_take_of_lt hk, List.getElem?_eq_getElem hkc, Option.map_some, Option.map_some,
      hslot]
  · rw [List.getElem?_eq_none, List.getElem?_eq_none]
    · simp only [List.length_map, List.length_take]
      omega
    · simp only [inputs, List.length_map, List.length_range]
      omega

end BatchArrays

namespace ResizeConvert

variable {s : ResizeConvert} {rets : CnrtRets}

/-! ## Filling up -/

theorem fill_cons {batchSize : Nat} {first : InputData} {rest : List InputData} :
    fill batchSize (first :: rest) =
      if rest.length + 1 < batchSize then fill batchSize (first :: rest ++ [first])
      else first :: rest := by
  rw [fill]

theorem fill_eq_pad (batchSize : Nat) (cache : List InputData) :
    fill batchSize cache = pad batchSize cache := by
  cases cache with
  | nil =>
    rw [fill]
    rfl
  | cons first rest =>
    induction hn : batchSize - (rest.length + 1) generalizing rest with
    | zero =>
      rw [fill_cons, if_neg (by omega), pad_cons, hn, List.replicate_zero, List.append_nil]
    | succ n ih =>
      have hlen : (rest ++ [first]).length = rest.length + 1 := by simp
      have hleft : batchSize - ((rest ++ [first]).length + 1) = n := by omega
      rw [fill_cons, if_pos (by omega), List.cons_append, ih (rest ++ [first]) hleft, pad_cons,
        pad_cons, hn, hleft, List.replicate_succ]
      simp
/-! ## Calls -/

/-- What the calls of an operator keep. -/
structure Kept (s : ResizeConvert) : Prop where
  accounts : Accounts (s.given.map InputData.stored) (s.taken.map Taken.batch) s.inputDatasCache
  padded : ∀ t ∈ s.taken, Padded s.batchSize t.batch
  last : ∀ t, s.taken.getLast? = some t →
    s.getLastBatchInput = t.batch.slots.map InputData.reported
  /-- The kernel is called with the arrays of the batch. -/
  kernel : ∀ t ∈ s.taken, ∀ a, t.kernel = some a →
    a.inputs s.batchSize = t.batch.slots.map InputData.reported

theorem initial_kept (batchSize : Nat) (cpu mlu : BatchArrays) :
    Kept (initial batchSize cpu mlu) where
  accounts := accounts_nil
  padded := fun t ht => absurd ht List.not_mem_nil
  last := by
    intro t ht
    cases ht
  kernel := fun t ht => absurd ht List.not_mem_nil

theorem batchingUp_kept (h : Kept s) (inputData : InputData) : Kept (s.batchingUp inputData) where
  accounts := by
    have hpush := h.accounts.push (a := inputData.stored)
    rwa [← List.map_singleton, ← List.map_append] at hpush
  padded := h.padded
  last := h.last
  kernel := h.kernel

theorem dispatch_snd : (s.dispatch rets).2 = s.takeBatch rets := by
  unfold dispatch
  split
  · rfl
  · split
    · rfl
    · split <;> rfl

/-- The kernel is called once all arrays are copied. -/
theorem copyArrays_eq {cpu mlu a : BatchArrays}
    (h : (if (copyArrays cpu mlu rets).1 then some (copyArrays cpu mlu rets).2 else none) = some a) :
    a = cpu := by
  have hall : copyArrays cpu mlu rets = (true, cpu) ∨ (copyArrays cpu mlu rets).1 = false := by
    unfold copyArrays
    split
    · exact .inr rfl
    · split
      · exact .inr rfl
      · split
        · exact .inr rfl
        · split
          · exact .inr rfl
          · exact .inl rfl
  rcases hall with hcopied | hfailed
  · rw [hcopied] at h
    exact (Option.some.inj h).symm
  · rw [hfailed] at h
    cases h

/-- The batch that is taken. -/
theorem takeBatch_taken (s : ResizeConvert) (rets : CnrtRets) :
    ∃ t, (s.takeBatch rets).taken = s.taken ++ [t] ∧
    t.batch = next s.batchSize s.inputDatasCache ∧
    ∀ a, t.kernel = some a → a = (s.takeBatch rets).cpu := by
  refine ⟨_, rfl, ?_, fun a ha => copyArrays_eq ha⟩
  rw [next, fill_eq_pad]

theorem takeBatch_cache : (s.takeBatch rets).inputDatasCache =
    (pad s.batchSize s.inputDatasCache).drop s.batchSize := by
  rw [← fill_eq_pad]
  exact BatchArrays.storeEach_snd

theorem takeBatch_last (h : s.inputDatasCache ≠ []) (rets : CnrtRets) :
    (s.takeBatch rets).getLastBatchInput =
      (next s.batchSize s.inputDatasCache).slots.map InputData.reported := by
  have hlen : s.batchSize ≤ (pad s.batchSize s.inputDatasCache).length := by
    rw [length_pad h]
    exact Nat.le_max_right _ _
  rw [next, ← BatchArrays.inputs_storeEach hlen, ← fill_eq_pad]
  rfl

theorem takeBatch_kept (h : Kept s) (hcache : s.inputDatasCache ≠ []) :
    Kept (s.takeBatch rets) := by
  obtain ⟨t, htaken, hbatch, hkernel⟩ := takeBatch_taken s rets
  have hlast := takeBatch_last hcache rets
  rw [← hbatch] at hlast
  refine ⟨?_, ?_, ?_, ?_⟩
  · rw [htaken, List.map_append, List.map_singleton, hbatch, takeBatch_cache]
    exact h.accounts.take
  · intro u hu
    rw [htaken] at hu
    rcases List.mem_append.mp hu with hu | hu
    · exact h.padded u hu
    · rw [List.mem_singleton.mp hu, hbatch]
      exact next_padded hcache
  · intro u hu
    rw [htaken, List.getLast?_concat] at hu
    cases hu
    exact hlast
  · intro u hu a ha
    rw [htaken] at hu
    rcases List.mem_append.mp hu with hu | hu
    · exact h.kernel u hu a ha
    · obtain rfl := List.mem_singleton.mp hu
      rw [hkernel a ha]
      exact hlast

theorem prepareTaskQueue_kept (h : Kept s) : Kept s.prepareTaskQueue := by
  unfold prepareTaskQueue
  split
  · exact ⟨h.accounts, h.padded, h.last, h.kernel⟩
  · exact h

theorem prepareTaskQueue_cache : s.prepareTaskQueue.inputDatasCache = s.inputDatasCache := by
  unfold prepareTaskQueue
  split <;> rfl

/-- A call takes no batch when there is no queue, or nothing to do. -/
theorem syncOneOutput_snd (s : ResizeConvert) (rets : CnrtRets) : (s.syncOneOutput rets).2 = s ∨
    (s.syncOneOutput rets).2 = s.prepareTaskQueue ∨
    s.inputDatasCache ≠ [] ∧ (s.syncOneOutput rets).2 = s.prepareTaskQueue.takeBatch rets := by
  unfold syncOneOutput
  split
  · exact .inl rfl
  · split
    · exact .inr (.inl rfl)
    · next hcache =>
      exact .inr (.inr ⟨fun hnil => hcache (by rw [hnil]; rfl), dispatch_snd⟩)

theorem syncOneOutput_kept (h : Kept s) (rets : CnrtRets) : Kept (s.syncOneOutput rets).2 := by
  rcases syncOneOutput_snd s rets with heq | heq | ⟨hcache, heq⟩
  · rwa [heq]
  · rw [heq]
    exact prepareTaskQueue_kept h
  · rw [heq]
    refine takeBatch_kept (prepareTaskQueue_kept h) ?_
    rwa [prepareTaskQueue_cache]

theorem step_kept (h : Kept s) (l : Label) : Kept (s.step l) := by
  cases l with
  | setMluQueue => exact ⟨h.accounts, h.padded, h.last, h.kernel⟩
  | batchingUp inputData => exact batchingUp_kept h inputData
  | syncOneOutput rets => exact syncOneOutput_kept h rets

/-- **What every call keeps, every run of calls keeps.** -/
theorem run_kept (h : Kept s) (ls : List Label) : Kept (s.run ls) := by
  induction ls generalizing s with
  | nil => exact h
  | cons l ls ih => exact ih (step_kept h l)

/-- The kernel is called exactly when the arrays are copied, whatever it returns. -/
theorem takeBatch_kernel (s : ResizeConvert) (rets : CnrtRets) :
    ∃ t, (s.takeBatch rets).taken = s.taken ++ [t] ∧ t.kernel.isSome = rets.copied := by
  refine ⟨_, rfl, ?_⟩
  dsimp only
  unfold copyArrays CnrtRets.copied
  cases rets.memcpyY <;> cases rets.memcpyUv <;> cases rets.memcpyWhs <;> cases rets.memcpyRois <;>
    rfl

/-- What a call does that has a queue and something to do. -/
theorem syncOneOutput_takes (s : ResizeConvert) (rets : CnrtRets)
    (hqueue : s.queue = true ∨ rets.createQueue = true) (hcache : s.inputDatasCache ≠ []) :
    ∃ t, (s.syncOneOutput rets).2.taken = s.taken ++ [t] ∧ t.kernel.isSome = rets.copied ∧
      (rets.copied = false → (s.syncOneOutput rets).1 = .returned false) := by
  have htaken : s.prepareTaskQueue.taken = s.taken := by
    unfold prepareTaskQueue
    split <;> rfl
  have hsync : s.syncOneOutput rets = s.prepareTaskQueue.dispatch rets := by
    rw [syncOneOutput, if_neg (by grind), if_neg (by simpa using hcache)]
  obtain ⟨t, ht, hkernel⟩ := takeBatch_kernel s.prepareTaskQueue rets
  rw [htaken] at ht
  refine ⟨t, ?_, hkernel, fun hfailed => ?_⟩
  · rw [hsync, dispatch_snd, ht]
  · rw [hsync, dispatch, if_pos hfailed]

/-- Batches that were taken while every copy succeeded were all dispatched. -/
theorem step_dispatched (h : ∀ t ∈ s.taken, t.kernel.isSome = true) {l : Label}
    (hl : ∀ rets, l = .syncOneOutput rets → rets.copied = true) :
    ∀ t ∈ (s.step l).taken, t.kernel.isSome = true := by
  have htaken : s.prepareTaskQueue.taken = s.taken := by
    unfold prepareTaskQueue
    split <;> rfl
  cases l with
  | setMluQueue => exact h
  | batchingUp inputData => exact h
  | syncOneOutput rets =>
    intro t ht
    change t ∈ (s.syncOneOutput rets).2.taken at ht
    rcases syncOneOutput_snd s rets with heq | heq | ⟨-, heq⟩
    · rw [heq] at ht
      exact h t ht
    · rw [heq, htaken] at ht
      exact h t ht
    · obtain ⟨u, hu, hkernel⟩ := takeBatch_kernel s.prepareTaskQueue rets
      rw [heq, hu, htaken] at ht
      rcases List.mem_append.mp ht with ht | ht
      · exact h t ht
      · rw [List.mem_singleton.mp ht, hkernel]
        exact hl rets rfl

theorem run_dispatched {ls : List Label} (hls : ∀ rets, .syncOneOutput rets ∈ ls → rets.copied = true) :
    ∀ {s : ResizeConvert}, (∀ t ∈ s.taken, t.kernel.isSome = true) →
      (s.run ls).dispatched = (s.run ls).taken := by
  induction ls with
  | nil => exact fun h => List.filter_eq_self.mpr h
  | cons l ls ih =>
    intro s h
    refine ih (fun rets hmem => hls rets (List.mem_cons_of_mem _ hmem)) (step_dispatched h ?_)
    rintro rets rfl
    exact hls rets List.mem_cons_self

/-! ## Runs -/

/-- The inputs that `BatchingUp` is called with. -/
def inputsOf : List Label → List InputData
  | [] => []
  | .batchingUp inputData :: ls => inputData :: inputsOf ls
  | _ :: ls => inputsOf ls

theorem syncOneOutput_given (s : ResizeConvert) (rets : CnrtRets) :
    (s.syncOneOutput rets).2.given = s.given ∧
      (s.syncOneOutput rets).2.batchSize = s.batchSize := by
  have hprepare : s.prepareTaskQueue.given = s.given ∧
      s.prepareTaskQueue.batchSize = s.batchSize := by
    unfold prepareTaskQueue
    split <;> exact ⟨rfl, rfl⟩
  rcases syncOneOutput_snd s rets with heq | heq | ⟨-, heq⟩
  · rw [heq]
    exact ⟨rfl, rfl⟩
  · rw [heq]
    exact hprepare
  · rw [heq]
    exact hprepare

theorem run_given (s : ResizeConvert) (ls : List Label) :
    (s.run ls).given = s.given ++ inputsOf ls ∧ (s.run ls).batchSize = s.batchSize := by
  induction ls generalizing s with
  | nil => exact ⟨(List.append_nil _).symm, rfl⟩
  | cons l ls ih =>
    obtain ⟨hgiven, hsize⟩ := ih (s.step l)
    show ((s.step l).run ls).given = _ ∧ ((s.step l).run ls).batchSize = _
    rw [hgiven, hsize]
    cases l with
    | setMluQueue => exact ⟨rfl, rfl⟩
    | batchingUp inputData => exact ⟨List.append_assoc _ _ _, rfl⟩
    | syncOneOutput rets =>
      obtain ⟨hgiven', hsize'⟩ := syncOneOutput_given s rets
      exact ⟨congrArg (· ++ inputsOf ls) hgiven', hsize'⟩

end ResizeConvert

/-! ## What is stored -/

/-- A picture of four by three, all of it. -/
def threeRows : InputData where
  srcW := 4
  srcH := 3
  srcStride := 4
  cropX := 0
  cropY := 0
  cropW := 0
  cropH := 0
  planeY := 4096
  planeUv := 8192

def zeroArrays : BatchArrays where
  yPtrs := fun _ => 0
  uvPtrs := fun _ => 0
  srcWhs := fun _ => 0
  srcRois := fun _ => 0

def allSucceed : CnrtRets where
  createQueue := true
  memcpyY := true
  memcpyUv := true
  memcpyWhs := true
  memcpyRois := true
  resizeAndConvert := true
  recreateQueue := true

/-- The first copy fails. -/
def copyFails : CnrtRets :=
  { allSucceed with memcpyY := false }

end CambriconGst.Easybang
