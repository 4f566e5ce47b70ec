import Mathlib.Algebra.BigOperators.Group.Finset.Basic
import Mathlib.Algebra.Order.BigOperators.Group.Finset
import Mathlib.Data.Fintype.Basic
import Mathlib.Data.Nat.Cast.Basic
import CambriconGst.Lib.System

/-!
# Cores that meet at barriers

Cores run code over one memory, in any interleaving, and wait for each other at barriers. What is
between two barriers is a phase.

* `RaceFree`: nothing is read in the phase that writes it, and the writes of a phase agree
* `content`: what the memory holds at the beginning of a phase
* `run_alone`: without races a core does what it does alone, with the `content` of its phases
* `exists_step`, `exists_end`: cores with as many barriers each do not wait for ever, and come to
  their end
* `run_length_le`: how long a run is
-/

namespace CambriconGst.Lib.Barrier

/-- `σ` is what a core keeps to itself, `O` what it puts out. -/
inductive Instr (A V σ O : Type*) where
  | read (a : A) (put : V → σ → σ)
  | write (a : A) (v : V)
  | act (f : σ → σ)
  | store (o : σ → O)
  | sync

variable {ι A V σ O : Type*}

namespace Instr

def isSync : Instr A V σ O → Bool
  | sync => true
  | _ => false

/-- What a core keeps, after the instruction. -/
def run (memory : A → V) (st : σ) : Instr A V σ O → σ
  | read a put => put (memory a) st
  | act f => f st
  | _ => st

/-- What the instruction puts out. -/
def puts (st : σ) : Instr A V σ O → List O
  | store o => [o st]
  | _ => []

def effect [DecidableEq A] (memory : A → V) : Instr A V σ O → A → V
  | write a v => Function.update memory a v
  | _ => memory

end Instr

/-! ## Code -/

/-- How many barriers there are. -/
def syncs (is : List (Instr A V σ O)) : Nat :=
  is.countP Instr.isSync

/-- The instructions with their phases, from phase `n` on. -/
def tagged : Nat → List (Instr A V σ O) → List (Nat × Instr A V σ O)
  | _, [] => []
  | n, .sync :: is => tagged (n + 1) is
  | n, i :: is => (n, i) :: tagged n is

section Tagged

variable {n m : Nat} {i : Instr A V σ O} {is js : List (Instr A V σ O)}

@[simp]
theorem syncs_nil : syncs ([] : List (Instr A V σ O)) = 0 :=
  rfl

@[simp]
theorem syncs_sync : syncs (.sync :: is) = syncs is + 1 :=
  List.countP_cons_of_pos rfl

theorem syncs_cons (h : i.isSync = false) : syncs (i :: is) = syncs is := by
  simp [syncs, h]

@[simp]
theorem syncs_append : syncs (is ++ js) = syncs is + syncs js :=
  List.countP_append

theorem syncs_eq_zero (h : ∀ i ∈ is, i.isSync = false) : syncs is = 0 :=
  List.countP_eq_zero.mpr fun i hi => by simp [h i hi]

theorem tagged_cons (h : i.isSync = false) : tagged n (i :: is) = (n, i) :: tagged n is := by
  cases i with
  | sync => cases h
  | _ => rfl

theorem tagged_append : tagged n (is ++ js) = tagged n is ++ tagged (n + syncs is) js := by
  induction is generalizing n with
  | nil => rfl
  | cons i is ih =>
    cases i with
    | sync =>
      have hsyncs : n + syncs (.sync :: is) = n + 1 + syncs is := by
        simp
        omega
      rw [List.cons_append, tagged, tagged, ih, hsyncs]
    | _ => exact congrArg (List.cons _) ih

theorem mem_tagged_append : (m, i) ∈ tagged n (is ++ js) ↔
    (m, i) ∈ tagged n is ∨ (m, i) ∈ tagged (n + syncs is) js := by
  rw [tagged_append, List.mem_append]

theorem mem_tagged_of_not_sync (h : ∀ i ∈ is, i.isSync = false) :
    (m, i) ∈ tagged n is ↔ m = n ∧ i ∈ is := by
  induction is with
  | nil => simp [tagged]
  | cons j is ih =>
    rw [tagged_cons (h j List.mem_cons_self), List.mem_cons, List.mem_cons,
      ih fun j hj => h j (List.mem_cons_of_mem _ hj), Prod.mk.injEq]
    grind

/-- Pieces of code with as many barriers each, one after the other. -/
theorem mem_tagged_flatMap {f : Nat → List (Instr A V σ O)} {w : Nat} (hw : ∀ x, syncs (f x) = w)
    {start num : Nat} : (m, i) ∈ tagged n ((List.range' start num).flatMap f) ↔
      ∃ q < num, (m, i) ∈ tagged (n + q * w) (f (start + q)) := by
  induction num generalizing n start with
  | zero => simp [tagged]
  | succ num ih =>
    rw [List.range'_succ, List.flatMap_cons, mem_tagged_append, hw, ih]
    constructor
    · rintro (h | ⟨q, hq, h⟩)
      · exact ⟨0, Nat.succ_pos num, by simpa using h⟩
      · refine ⟨q + 1, Nat.succ_lt_succ hq, ?_⟩
        rwa [Nat.succ_mul, Nat.add_comm (q * w), ← Nat.add_assoc, Nat.add_comm q, ← Nat.add_assoc]
    · rintro ⟨q, hq, h⟩
      cases q with
      | zero => exact .inl (by simpa using h)
      | succ q =>
        refine .inr ⟨q, Nat.lt_of_succ_lt_succ hq, ?_⟩
        rwa [Nat.succ_mul, Nat.add_comm (q * w), ← Nat.add_assoc, Nat.add_comm q, ← Nat.add_assoc] at h

theorem syncs_flatMap {β : Type*} {f : β → List (Instr A V σ O)} {w : Nat} (hw : ∀ x, syncs (f x) = w)
    (l : List β) : syncs (l.flatMap f) = l.length * w := by
  induction l with
  | nil => simp
  | cons x l ih =>
    rw [List.flatMap_cons, syncs_append, hw, ih, List.length_cons, Nat.succ_mul, Nat.add_comm]

theorem mem_tagged_bounds (h : (m, i) ∈ tagged n is) : n ≤ m ∧ m ≤ n + syncs is := by
  induction is generalizing n with
  | nil => simp [tagged] at h
  | cons j is ih =>
    cases j with
    | sync =>
      have hi := ih h
      simp only [syncs_sync]
      omega
    | _ =>
      rcases List.mem_cons.mp h with h | h
      · obtain ⟨rfl, -⟩ := Prod.mk.inj h
        exact ⟨Nat.le_refl _, Nat.le_add_right _ _⟩
      · exact ih h

end Tagged

/-- Nothing is read in the phase that writes it, and the writes of a phase agree. -/
structure RaceFree (code : ι → List (Instr A V σ O)) : Prop where
  read {c d : ι} {n : Nat} {a : A} {put : V → σ → σ} {v : V}
    (hr : (n, .read a put) ∈ tagged 0 (code c)) : (n, .write a v) ∉ tagged 0 (code d)
  write {c d : ι} {n : Nat} {a : A} {v w : V} (hv : (n, .write a v) ∈ tagged 0 (code c))
    (hw : (n, .write a w) ∈ tagged 0 (code d)) : v = w

open Classical in
/-- What the memory holds at the beginning of a phase. -/
noncomputable def content (memory : A → V) (code : ι → List (Instr A V σ O)) : Nat → A → V
  | 0, a => memory a
  | n + 1, a =>
    if h : ∃ v c, (n, .write a v) ∈ tagged 0 (code c) then h.choose
    else content memory code n a

section Content

variable {memory : A → V} {code : ι → List (Instr A V σ O)} {n : Nat} {a : A} {v : V} {c : ι}

theorem content_of_write (hfree : RaceFree code) (h : (n, .write a v) ∈ tagged 0 (code c)) :
    content memory code (n + 1) a = v := by
  have hex : ∃ v c, (n, .write a v) ∈ tagged 0 (code c) := ⟨v, c, h⟩
  rw [content, dif_pos hex]
  obtain ⟨d, hd⟩ := hex.choose_spec
  exact hfree.write hd h

theorem content_of_not_write (h : ∀ c v, (n, .write a v) ∉ tagged 0 (code c)) :
    content memory code (n + 1) a = content memory code n a := by
  rw [content, dif_neg]
  rintro ⟨v, c, hc⟩
  exact h c v hc

end Content

/-! ## A core alone -/

/-- A core by itself: the phase, what it keeps and what it has put out. -/
structure Solo (σ O : Type*) where
  phase : Nat
  st : σ
  out : List O

namespace Solo

variable {memory : Nat → A → V} {p : Solo σ O} {i : Instr A V σ O} {is js : List (Instr A V σ O)}

/-- An instruction, where the memory of each phase is known. -/
def exec (memory : Nat → A → V) (p : Solo σ O) (i : Instr A V σ O) : Solo σ O where
  phase := if i.isSync then p.phase + 1 else p.phase
  st := i.run (memory p.phase) p.st
  out := p.out ++ i.puts p.st

def runs (memory : Nat → A → V) (p : Solo σ O) (is : List (Instr A V σ O)) : Solo σ O :=
  is.foldl (exec memory) p

@[simp]
theorem runs_nil : p.runs memory ([] : List (Instr A V σ O)) = p :=
  rfl

@[simp]
theorem runs_cons : p.runs memory (i :: is) = (p.exec memory i).runs memory is :=
  rfl

theorem runs_append : p.runs memory (is ++ js) = (p.runs memory is).runs memory js :=
  List.foldl_append

theorem runs_concat : p.runs memory (is ++ [i]) = (p.runs memory is).exec memory i :=
  runs_append

/-- What is written changes nothing for the core itself. -/
theorem runs_writes {β : Type*} (l : List β) (f : β → A) (g : β → V) :
    p.runs memory (l.map fun x => (.write (f x) (g x) : Instr A V σ O)) = p := by
  induction l generalizing p with
  | nil => rfl
  | cons x l ih =>
    rw [List.map_cons, runs_cons, ih]
    simp [exec, Instr.isSync, Instr.run, Instr.puts]

/-- Pieces of code that change nothing but what the core keeps. -/
theorem runs_flatMap {β : Type*} {f : β → List (Instr A V σ O)} {g : β → σ → σ} (l : List β)
    (h : ∀ x ∈ l, ∀ st, runs memory { p with st } (f x) = { p with st := g x st }) :
    p.runs memory (l.flatMap f) = { p with st := l.foldl (fun st x => g x st) p.st } := by
  induction l generalizing p with
  | nil => rfl
  | cons x l ih =>
    have hrest := ih (p := { p with st := g x p.st }) fun y hy => h y (List.mem_cons_of_mem x hy)
    rw [List.flatMap_cons, runs_append, List.foldl_cons]
    exact (congrArg (runs memory · (l.flatMap f)) (h x List.mem_cons_self p.st)).trans hrest

theorem runs_phase : (p.runs memory is).phase = p.phase + syncs is := by
  induction is generalizing p with
  | nil => rfl
  | cons i is ih =>
    rw [runs_cons, ih]
    cases hi : i.isSync with
    | true =>
      have hsyncs : syncs (i :: is) = syncs is + 1 := List.countP_cons_of_pos hi
      simp only [exec, hi, if_true]
      omega
    | false => simp [exec, hi, syncs_cons hi]

end Solo

/-! ## All cores -/

structure Cores (ι A V σ O : Type*) where
  memory : A → V
  /-- What each core has still to do. -/
  code : ι → List (Instr A V σ O)
  st : ι → σ
  /-- What has been put out, and by whom. -/
  out : List (ι × O)

inductive Label (ι : Type*) where
  | step (c : ι)
  /-- All cores pass the barrier. -/
  | sync
deriving DecidableEq, Repr

/-- What a core has put out. -/
def outOf [DecidableEq ι] (out : List (ι × O)) (c : ι) : List O :=
  out.filterMap fun o => if o.1 = c then some o.2 else none

theorem outOf_append [DecidableEq ι] (out : List (ι × O)) (c d : ι) (os : List O) :
    outOf (out ++ os.map (c, ·)) d = if d = c then outOf out d ++ os else outOf out d := by
  rw [outOf, List.filterMap_append, List.filterMap_map]
  split
  · next h => simp [outOf, h]
  · next h => simp [outOf, Ne.symm h]

namespace Cores

variable [DecidableEq ι] [DecidableEq A]

/-- A core executes the instruction `i`, with `is` to come. -/
def exec (s : Cores ι A V σ O) (c : ι) (i : Instr A V σ O) (is : List (Instr A V σ O)) :
    Cores ι A V σ O where
  memory := i.effect s.memory
  code := Function.update s.code c is
  st := Function.update s.st c (i.run s.memory (s.st c))
  out := s.out ++ (i.puts (s.st c)).map (c, ·)

/-- A core is at a barrier. -/
def waits (is : List (Instr A V σ O)) : Bool :=
  is.head?.any Instr.isSync

def next [Fintype ι] (s : Cores ι A V σ O) : Label ι → Option (Cores ι A V σ O)
  | .step c =>
    match s.code c with
    | [] => none
    | i :: is => if i.isSync then none else some (s.exec c i is)
  | .sync => if ∀ c, waits (s.code c) then some { s with code := fun c => (s.code c).tail } else none

/-! ## What every step keeps -/

section Invariant

variable {s₀ s t : Cores ι A V σ O} {n : Nat} {done : ι → List (Instr A V σ O)} {c : ι}
  {i : Instr A V σ O} {is : List (Instr A V σ O)}

/-- All cores are in phase `n`, each has done its part of the code, and as if alone. -/
structure At (s₀ s : Cores ι A V σ O) (n : Nat) (done : ι → List (Instr A V σ O)) : Prop where
  code (c : ι) : s₀.code c = done c ++ s.code c
  alone (c : ι) : Solo.runs (content s₀.memory s₀.code) ⟨0, s₀.st c, []⟩ (done c) =
    ⟨n, s.st c, outOf s.out c⟩
  written (c : ι) (a : A) (v : V) (h : (n, .write a v) ∈ tagged 0 (done c)) : s.memory a = v
  kept (a : A) (h : ∀ c v, (n, .write a v) ∉ tagged 0 (done c)) :
    s.memory a = content s₀.memory s₀.code n a

omit [DecidableEq A]

theorem At.start (h : s.out = []) : At s s 0 fun _ => [] where
  code _ := rfl
  alone c := by simp [outOf, h]
  written c a v h := absurd h List.not_mem_nil
  kept _ _ := rfl

theorem At.syncs_done (h : At s₀ s n done) (c : ι) : syncs (done c) = n := by
  have hphase := congrArg Solo.phase (h.alone c)
  rwa [Solo.runs_phase, Nat.zero_add] at hphase

theorem At.mem_code (h : At s₀ s n done) {m : Nat} :
    (m, i) ∈ tagged 0 (s₀.code c) ↔ (m, i) ∈ tagged 0 (done c) ∨ (m, i) ∈ tagged n (s.code c) := by
  rw [h.code, tagged_append, Nat.zero_add, h.syncs_done, List.mem_append]

theorem At.mem_next (h : At s₀ s n done) (hcode : s.code c = i :: is) (hi : i.isSync = false) :
    (n, i) ∈ tagged 0 (s₀.code c) := by
  rw [h.mem_code, hcode, tagged_cons hi]
  exact .inr List.mem_cons_self

/-- A core goes on, the others stay. -/
theorem At.mem_update (h : At s₀ s n done) (hi : i.isSync = false) {d : ι} {m : Nat}
    {j : Instr A V σ O} : (m, j) ∈ tagged 0 (Function.update done c (done c ++ [i]) d) ↔
      (m, j) ∈ tagged 0 (done d) ∨ d = c ∧ m = n ∧ j = i := by
  by_cases hd : d = c
  · subst hd
    rw [Function.update_self, tagged_append, Nat.zero_add, h.syncs_done, tagged_cons hi]
    simp [tagged]
  · simp [hd]

/-- What is read is what the memory held at the beginning of the phase. -/
theorem At.run_eq (h : At s₀ s n done) (hfree : RaceFree s₀.code) (hcode : s.code c = i :: is) (st : σ) :
    i.run s.memory st = i.run (content s₀.memory s₀.code n) st := by
  cases i with
  | read a put =>
    have hread := h.mem_next hcode rfl
    show put _ st = put _ st
    rw [h.kept a fun d v hd => hfree.read hread (h.mem_code.mpr (.inl hd))]
  | _ => rfl

theorem waits_iff : waits is = true ↔ ∃ js, is = .sync :: js := by
  cases is with
  | nil => simp [waits]
  | cons i is => cases i <;> simp [waits, Instr.isSync]

/-- The cores pass a barrier: all that was to be written in the phase has been. -/
theorem At.pass (h : At s₀ s n done) (hfree : RaceFree s₀.code)
    (hwaits : ∀ c, waits (s.code c) = true) :
    At s₀ { s with code := fun c => (s.code c).tail } (n + 1) fun c => done c ++ [.sync] where
  code c := by
    obtain ⟨js, hjs⟩ := waits_iff.mp (hwaits c)
    simp [h.code c, hjs]
  alone c := by
    rw [Solo.runs_concat, h.alone c]
    simp [Solo.exec, Instr.isSync, Instr.run, Instr.puts]
  written c a v hc := by
    rw [tagged_append] at hc
    rcases List.mem_append.mp hc with hc | hc
    · have hle := (mem_tagged_bounds hc).2
      rw [h.syncs_done] at hle
      omega
    · simp [tagged] at hc
  kept a _ := by
    by_cases hex : ∃ c v, (n, .write a v) ∈ tagged 0 (done c)
    · obtain ⟨c, v, hc⟩ := hex
      exact (h.written c a v hc).trans (content_of_write hfree (h.mem_code.mpr (.inl hc))).symm
    · simp only [not_exists] at hex
      refine (h.kept a hex).trans (content_of_not_write fun c v hc => ?_).symm
      obtain ⟨js, hjs⟩ := waits_iff.mp (hwaits c)
      rcases h.mem_code.mp hc with hc | hc
      · exact hex c v hc
      · -- what is behind the barrier is in later phases
        rw [hjs] at hc
        have hnext : (n, .write a v) ∈ tagged (n + 1) js := hc
        have hle := (mem_tagged_bounds hnext).1
        omega

end Invariant

section Exec

variable {s₀ s t : Cores ι A V σ O} {n : Nat} {done : ι → List (Instr A V σ O)} {c : ι}
  {i : Instr A V σ O} {is : List (Instr A V σ O)}

/-- A core executes an instruction. -/
theorem At.exec (h : At s₀ s n done) (hfree : RaceFree s₀.code) (hcode : s.code c = i :: is)
    (hi : i.isSync = false) :
    At s₀ (s.exec c i is) n (Function.update done c (done c ++ [i])) where
  code d := by
    by_cases hd : d = c
    · subst hd
      simp [Cores.exec, h.code d, hcode]
    · simp [Cores.exec, hd, h.code d]
  alone d := by
    simp only [Cores.exec, outOf_append]
    by_cases hd : d = c
    · subst hd
      rw [Function.update_self, Function.update_self, if_pos rfl, Solo.runs_concat, h.alone d,
        h.run_eq hfree hcode]
      simp [Solo.exec, hi]
    · rw [Function.update_of_ne hd, Function.update_of_ne hd, if_neg hd, h.alone d]
  written d a v hd := by
    have hcall := h.mem_next hcode hi
    have hold : (n, .write a v) ∈ tagged 0 (s₀.code d) := by
      rcases (h.mem_update hi).mp hd with hd | ⟨rfl, -, rfl⟩
      · exact h.mem_code.mpr (.inl hd)
      · exact hcall
    cases i with
    | write b w =>
      simp only [Cores.exec, Instr.effect, Function.update_apply]
      split
      · next hab =>
        subst hab
        exact hfree.write hcall hold
      · next hab =>
        rcases (h.mem_update hi).mp hd with hd | ⟨-, -, hd⟩
        · exact h.written d a v hd
        · exact absurd (Instr.write.inj hd).1 hab
    | _ =>
      rcases (h.mem_update hi).mp hd with hd | ⟨-, -, hd⟩
      · exact h.written d a v hd
      · cases hd
  kept a ha := by
    have hold := h.kept a fun d v hd => ha d v ((h.mem_update hi).mpr (.inl hd))
    cases i with
    | write b w =>
      have hne : a ≠ b := by
        rintro rfl
        exact ha c w ((h.mem_update hi).mpr (.inr ⟨rfl, rfl, rfl⟩))
      simpa [Cores.exec, Instr.effect, hne] using hold
    | _ => exact hold

variable [Fintype ι]

theorem next_cases {l : Label ι} (h : s.next l = some t) :
    (∃ c i is, s.code c = i :: is ∧ i.isSync = false ∧ t = s.exec c i is) ∨
      (∀ c, waits (s.code c) = true) ∧ t = { s with code := fun c => (s.code c).tail } := by
  cases l with
  | step c =>
    simp only [next] at h
    split at h
    · cases h
    · next i is hcode =>
      split at h
      · cases h
      · next hi => exact .inl ⟨c, i, is, hcode, by simpa using hi, (Option.some.inj h).symm⟩
  | sync =>
    simp only [next] at h
    split at h
    · next hwaits => exact .inr ⟨hwaits, (Option.some.inj h).symm⟩
    · cases h

theorem run_at {ls : List (Label ι)} (hout : s₀.out = []) (hfree : RaceFree s₀.code)
    (hrun : System.run next s₀ ls = some s) : ∃ n done, At s₀ s n done := by
  refine System.run_invariant (I := fun s => ∃ n done, At s₀ s n done) ?_ hrun ⟨0, _, .start hout⟩
  rintro s l t ⟨n, done, h⟩ hnext
  rcases next_cases hnext with ⟨c, i, is, hcode, hi, rfl⟩ | ⟨hwaits, rfl⟩
  · exact ⟨_, _, h.exec hfree hcode hi⟩
  · exact ⟨_, _, h.pass hfree hwaits⟩

/-- **In the end each core has put out what it puts out alone.** -/
theorem run_alone {ls : List (Label ι)} (hout : s₀.out = []) (hfree : RaceFree s₀.code)
    (hrun : System.run next s₀ ls = some s) (c : ι) (hend : s.code c = []) :
    outOf s.out c = (Solo.runs (content s₀.memory s₀.code) ⟨0, s₀.st c, []⟩ (s₀.code c)).out := by
  obtain ⟨n, done, h⟩ := run_at hout hfree hrun
  have hdone : s₀.code c = done c := by rw [h.code c, hend, List.append_nil]
  rw [hdone, h.alone c]

/-- Nobody waits at a barrier that another core does not come to. -/
theorem exists_step {ls : List (Label ι)} (hout : s₀.out = []) (hfree : RaceFree s₀.code)
    (hsyncs : ∀ c d, syncs (s₀.code c) = syncs (s₀.code d))
    (hrun : System.run next s₀ ls = some s) (hmore : ∃ c, s.code c ≠ []) :
    ∃ l, (s.next l).isSome = true := by
  obtain ⟨n, done, h⟩ := run_at hout hfree hrun
  by_cases hall : ∀ c, waits (s.code c) = true
  · exact ⟨.sync, by simp [next, hall]⟩
  obtain ⟨c, hc⟩ := not_forall.mp hall
  cases hcode : s.code c with
  | cons i is =>
    have hi : i.isSync = false := by simpa [waits, hcode] using hc
    exact ⟨.step c, by simp [next, hcode, hi]⟩
  | nil =>
    -- a core that is done has passed all barriers
    obtain ⟨d, hd⟩ := hmore
    obtain ⟨i, is, hcode'⟩ := List.exists_cons_of_ne_nil hd
    have hle : syncs (s.code d) = 0 := by
      have hcd := hsyncs c d
      rw [h.code c, h.code d, hcode, syncs_append, syncs_append, h.syncs_done, h.syncs_done] at hcd
      simpa using hcd.symm
    have hi : i.isSync = false := by
      rw [hcode'] at hle
      simpa using List.countP_eq_zero.mp hle i List.mem_cons_self
    exact ⟨.step d, by simp [next, hcode', hi]⟩

theorem run_length_le [Nonempty ι] {ls : List (Label ι)}
    (hrun : System.run next s₀ ls = some s) : ls.length ≤ ∑ c, (s₀.code c).length := by
  have hwork := System.run_work (C := fun _ _ => True) (I := fun _ => True)
    (fun s : Cores ι A V σ O => ∑ c, (s.code c).length) (fun _ => 1) (fun _ => 0)
    (fun _ _ _ _ _ _ => trivial) (fun s l t _ _ hnext => ?_) trivial
    (System.meets_of_forall (fun _ _ => trivial) s₀ ls) hrun
  · simp at hwork
    omega
  · rw [Nat.add_zero, Nat.succ_le_iff]
    rcases next_cases hnext with ⟨c, i, is, hcode, -, rfl⟩ | ⟨hwaits, rfl⟩
    · refine Finset.sum_lt_sum (fun d _ => ?_) ⟨c, Finset.mem_univ c, ?_⟩
      · by_cases hd : d = c
        · subst hd
          simp [Cores.exec, hcode]
        · simp [Cores.exec, hd]
      · simp [Cores.exec, hcode]
    · refine Finset.sum_lt_sum_of_nonempty Finset.univ_nonempty fun c _ => ?_
      obtain ⟨js, hjs⟩ := waits_iff.mp (hwaits c)
      simp [hjs]

/-- At their end no core can go on. -/
theorem next_of_end [Nonempty ι] (hend : ∀ c, s.code c = []) (l : Label ι) : s.next l = none := by
  refine Option.eq_none_iff_forall_ne_some.mpr fun t ht => ?_
  rcases next_cases ht with ⟨c, i, is, hcode, -⟩ | ⟨hwaits, -⟩
  · simp [hend c] at hcode
  · obtain ⟨c⟩ := ‹Nonempty ι›
    simpa [waits, hend c] using hwaits c

/-- Some order brings all cores to their end: any run can go on until then. -/
theorem exists_end [Nonempty ι] (hout : s₀.out = []) (hfree : RaceFree s₀.code)
    (hsyncs : ∀ c d, syncs (s₀.code c) = syncs (s₀.code d)) :
    ∃ ls s, System.run next s₀ ls = some s ∧ ∀ c, s.code c = [] := by
  have hlonger {ls : List (Label ι)} {s : Cores ι A V σ O} (hrun : System.run next s₀ ls = some s)
      (hmore : ¬∀ c, s.code c = []) : ∃ l t, System.run next s₀ (ls ++ [l]) = some t := by
    obtain ⟨l, hl⟩ := exists_step hout hfree hsyncs hrun (not_forall.mp hmore)
    obtain ⟨t, ht⟩ := Option.isSome_iff_exists.mp hl
    exact ⟨l, t, System.run_append.mpr ⟨s, hrun, System.run_cons.mpr ⟨t, ht, rfl⟩⟩⟩
  -- by induction on how many steps there can still be
  have hgo (n : Nat) {ls : List (Label ι)} {s : Cores ι A V σ O}
      (hrun : System.run next s₀ ls = some s)
      (hn : (∑ c, (s₀.code c).length) < ls.length + n) :
      ∃ ls s, System.run next s₀ ls = some s ∧ ∀ c, s.code c = [] := by
    induction n generalizing ls s with
    | zero => exact absurd (run_length_le hrun) (by omega)
    | succ n ih =>
      by_cases hend : ∀ c, s.code c = []
      · exact ⟨ls, s, hrun, hend⟩
      · obtain ⟨l, t, ht⟩ := hlonger hrun hend
        refine ih ht ?_
        rw [List.length_append, List.length_singleton]
        omega
  refine hgo ((∑ c, (s₀.code c).length) + 1) System.run_nil ?_
  rw [List.length_nil, Nat.zero_add]
  exact Nat.lt_succ_self _

end Exec

end Cores

end CambriconGst.Lib.Barrier
