import CambriconGst.Lib.Layout
import CambriconGst.Properties.ResizeTables

/-!
# What the workspace of resize and convert holds

* `Workspace.prepareElement_spec`: what the body of the loop does
* `prepareEntries_prepared`: what holds after the loop, whatever the positions
* `Prepared.load_slot`, `Prepared.load_block`: what is found there
-/

namespace CambriconGst.Easybang

open Lib

variable {columns : TableKey → Columns}

/-! ## Blocks -/

/-- What a block of the workspace is reserved for. -/
inductive BlockKey where
  | tables (k : TableKey)
  | copyFilter (mult : Nat)
deriving DecidableEq, Repr

namespace BlockKey

def bytes (columns : TableKey → Columns) : BlockKey → Nat
  | tables k => (columns k).bytes
  | copyFilter mult => copyFilterBytes mult

def writes (columns : TableKey → Columns) : BlockKey → Nat → List (Write Datum)
  | tables k => tableWrites (columns k)
  | copyFilter mult => copyFilterWrites mult

end BlockKey

theorem pixel_add (start table index : Nat) (q : ℚ) :
    pixel (start + table) index q = (pixel table index q).map (Write.shift start) := by
  unfold pixel
  rw [List.map_map]
  refine List.map_congr_left fun c _ => ?_
  simp only [Function.comp_apply, Write.shift, Nat.add_assoc]

theorem tableColumn_add (c : Columns) (start d : Nat) :
    tableColumn c (c.tablesAt start) d
      = (tableColumn c (c.tablesAt 0) d).map (Write.shift start) := by
  have hzero : ∀ index q, pixel start index q = (pixel 0 index q).map (Write.shift start) :=
    pixel_add start 0
  simp only [tableColumn, Columns.tablesAt, Nat.zero_add, List.map_append, Nat.add_assoc,
    pixel_add start, hzero]
  split <;> rfl

theorem BlockKey.writes_shift (b : BlockKey) (start : Nat) :
    b.writes columns start = (b.writes columns 0).map (Write.shift start) := by
  cases b with
  | tables k =>
    simp only [writes, tableWrites, List.map_flatMap]
    exact List.flatMap_congr fun d _ => tableColumn_add (columns k) start d
  | copyFilter mult =>
    simp only [writes, copyFilterWrites, List.map_flatMap, List.map_map]
    refine List.flatMap_congr fun lt _ => List.map_congr_left fun idx _ => ?_
    simp only [Function.comp_apply, Write.shift, Nat.zero_add]

theorem BlockKey.writes_inside (columns : TableKey → Columns) {b : BlockKey}
    (hin : ∀ k, b = .tables k → (columns k).Inside) (hm : ∀ mult, b = .copyFilter mult → 0 < mult)
    (start : Nat) : ∀ w ∈ b.writes columns start, w.Inside start (b.bytes columns) := by
  cases b with
  | tables k => exact Columns.tableWrites_inside (hin k rfl) start
  | copyFilter mult => exact copyFilterWrites_inside (hm mult rfl) start

/-- The blocks that a batch element has its pointers to. -/
def Element.blocks (e : Element) : List (BlockKey × Nat) :=
  (.tables e.tableKey, e.tables.maskLeft) ::
    e.copyFilter.toList.map fun p => (.copyFilter e.mult, p)

/-! ## The front of the workspace -/

/-- What is stored in a slot of a batch element. -/
def Element.stored (e : Element) : Slot → Option Datum
  | .mult => some (.int e.mult)
  | .maskLeft => some (.ptr e.tables.maskLeft)
  | .maskRight => some (.ptr e.tables.maskRight)
  | .weightLeft => some (.ptr e.tables.weightLeft)
  | .weightRight => some (.ptr e.tables.weightRight)
  | .copyFilter => e.copyFilter.map .ptr

theorem Slot.write_le {n i : Nat} (hi : i < n) (slot : Slot) (datum : Datum) :
    (slot.write n i datum).offset + (slot.write n i datum).size ≤ headerBytes n := by
  cases slot <;> simp only [Slot.write, Slot.offset, Slot.size, headerBytes] <;> omega

theorem Slot.size_pos (slot : Slot) : 0 < slot.size := by
  cases slot <;> decide

/-- No two slots share a byte. -/
theorem Slot.eq_of_overlaps {n i j : Nat} {s t : Slot} {d : Datum} (hi : i < n) (hj : j < n)
    (h : (s.write n i d).Overlaps (t.offset n j) t.size) : s = t ∧ i = j := by
  cases s <;> cases t <;>
    simp only [Write.Overlaps, Slot.write, Slot.offset, Slot.size, reduceCtorEq, true_and,
      false_and] at h ⊢ <;> omega

/-! ## One batch element -/

structure Element.WellFormed (columns : TableKey → Columns) (e : Element) : Prop where
  tables : e.tables = (columns e.tableKey).tablesAt e.tables.maskLeft
  copyFilter : e.copyFilter.isSome ↔ e.mult < multLimit

namespace Workspace

variable {n i m : Nat} {ws : Workspace} {blocks : List (BlockKey × Nat)} {k : TableKey}
  {slot : Slot} {d : Datum} {w : Write Datum}

def Holds (columns : TableKey → Columns) (n : Nat) (ws : Workspace)
    (blocks : List (BlockKey × Nat)) : Prop :=
  Laid (BlockKey.bytes columns) (BlockKey.writes columns) (headerBytes n) ws.cur ws.writes blocks

/-- A write to the front of the workspace. -/
def Front (n : Nat) (ws : Workspace) (w : Write Datum) : Prop :=
  w ∈ ws.writes ∧ w.offset < headerBytes n

theorem put_holds (h : ws.Holds columns n blocks) (hi : i < n) :
    (ws.put n i slot d).Holds columns n blocks :=
  Laid.write h (Slot.write_le hi slot d)

theorem front_put (hi : i < n) :
    (ws.put n i slot d).Front n w ↔ ws.Front n w ∨ w = slot.write n i d := by
  have hle := Slot.write_le hi slot d
  have hsize : 0 < (slot.write n i d).size := slot.size_pos
  unfold Front put
  rw [List.mem_append, List.mem_singleton, or_and_right]
  refine or_congr_right ⟨And.left, fun h => ⟨h, ?_⟩⟩
  rw [h]
  omega

theorem putCopyFilter_holds (h : ws.Holds columns n blocks) (hi : i < n) (filter : Option Nat) :
    (ws.putCopyFilter n i filter).Holds columns n blocks := by
  cases filter with
  | none => exact h
  | some p => exact put_holds h hi

theorem front_putCopyFilter (hi : i < n) (filter : Option Nat) :
    (ws.putCopyFilter n i filter).Front n w ↔
      ws.Front n w ∨ ∃ p, filter = some p ∧ w = Slot.copyFilter.write n i (.ptr p) := by
  cases filter with
  | none => simp [putCopyFilter]
  | some p => simp [putCopyFilter, front_put hi]

@[simp]
theorem putCopyFilter_elements (filter : Option Nat) :
    (ws.putCopyFilter n i filter).elements = ws.elements := by
  cases filter <;> rfl

/-- What is written behind the front is no write to it. -/
theorem front_append {log : List (Write Datum)} {cur : Nat} {elements : List Element}
    (h : ∀ w ∈ log, headerBytes n ≤ w.offset) :
    Front n { cur, elements, writes := ws.writes ++ log } w ↔ ws.Front n w := by
  unfold Front
  rw [List.mem_append, or_and_right]
  refine or_iff_left fun hw => ?_
  have hle := h w hw.1
  omega

theorem maskAndWeights_spec (h : ws.Holds columns n blocks) (hin : (columns k).Inside)
    (hsub : ws.elements.flatMap Element.blocks ⊆ blocks)
    (hwf : ∀ e ∈ ws.elements, e.WellFormed columns) :
    (ws.maskAndWeights columns k).2.Holds columns n
        ((.tables k, (ws.maskAndWeights columns k).1.maskLeft) :: blocks) ∧
      (ws.maskAndWeights columns k).1
        = (columns k).tablesAt (ws.maskAndWeights columns k).1.maskLeft ∧
      (ws.maskAndWeights columns k).2.elements = ws.elements ∧
      ∀ w, (ws.maskAndWeights columns k).2.Front n w ↔ ws.Front n w := by
  unfold maskAndWeights
  split
  · next p hfind =>
    have hp := List.mem_of_find?_eq_some hfind
    have hkey : k = p.tableKey := by
      have hsome := List.find?_some hfind
      simp only [decide_eq_true_eq] at hsome
      obtain ⟨hparity, hwidth, hdst⟩ := hsome
      rw [ListEntry.tableKey, ← hparity, ← hwidth, ← hdst]
    have hmem : (.tables k, p.tables.maskLeft) ∈ blocks := by
      refine hsub (List.mem_flatMap.mpr ⟨p, hp, ?_⟩)
      rw [hkey]
      exact List.mem_cons_self
    refine ⟨h.congr fun b => ?_, ?_, rfl, fun w => Iff.rfl⟩
    · rw [List.mem_cons, or_iff_right_of_imp]
      rintro rfl
      exact hmem
    · rw [hkey]
      exact (hwf p hp).tables
  · have hin := BlockKey.writes_inside columns (b := .tables k)
      (fun k' heq => by rwa [← BlockKey.tables.inj heq]) (fun _ heq => nomatch heq) ws.cur
    refine ⟨Laid.reserve (k := BlockKey.tables k) h hin, rfl, rfl, fun w => ?_⟩
    exact front_append fun w hmem => h.header_le.trans (hin w hmem).1

theorem copyFilter_spec (h : ws.Holds columns n blocks) (hm : 0 < m)
    (hsub : ws.elements.flatMap Element.blocks ⊆ blocks)
    (hwf : ∀ e ∈ ws.elements, e.WellFormed columns) :
    (ws.copyFilter m).2.Holds columns n
        (((ws.copyFilter m).1.toList.map fun p => (.copyFilter m, p)) ++ blocks) ∧
      ((ws.copyFilter m).1.isSome ↔ m < multLimit) ∧
      (ws.copyFilter m).2.elements = ws.elements ∧
      ∀ w, (ws.copyFilter m).2.Front n w ↔ ws.Front n w := by
  unfold copyFilter
  split
  · next hlt =>
    split
    · next p hfind =>
      have hp := List.mem_of_find?_eq_some hfind
      have hmult : m = p.mult := by simpa using List.find?_some hfind
      have hsome : p.copyFilter.isSome ↔ m < multLimit := by rw [hmult, (hwf p hp).copyFilter]
      refine ⟨h.congr fun b => ?_, hsome, rfl, fun w => Iff.rfl⟩
      rw [List.mem_append, or_iff_right_of_imp]
      intro hb
      refine hsub (List.mem_flatMap.mpr ⟨p, hp, ?_⟩)
      rw [hmult] at hb
      exact List.mem_cons_of_mem _ hb
    · have hin := BlockKey.writes_inside columns (b := .copyFilter m)
        (fun _ heq => nomatch heq) (fun m' heq => by rwa [← BlockKey.copyFilter.inj heq]) ws.cur
      refine ⟨Laid.reserve (k := BlockKey.copyFilter m) h hin, iff_of_true rfl hlt, rfl,
        fun w => ?_⟩
      exact front_append fun w hmem => h.header_le.trans (hin w hmem).1
  · next hlt => exact ⟨h, iff_of_false (by simp) hlt, rfl, fun w => Iff.rfl⟩

/-- What the body of the loop does: the entries of one element are added. -/
theorem prepareElement_spec {le : ListEntry} (hm : 0 < le.mult)
    (hin : (columns le.tableKey).Inside) (hi : ws.elements.length < n)
    (h : ws.Holds columns n (ws.elements.flatMap Element.blocks))
    (hwf : ∀ e ∈ ws.elements, e.WellFormed columns) :
    ∃ e : Element, e.toListEntry = le ∧ e.WellFormed columns ∧
      (ws.prepareElement columns n le).elements = ws.elements ++ [e] ∧
      (ws.prepareElement columns n le).Holds columns n
        (e.blocks ++ ws.elements.flatMap Element.blocks) ∧
      ∀ w, (ws.prepareElement columns n le).Front n w ↔
        ws.Front n w ∨
          ∃ slot d, e.stored slot = some d ∧ w = slot.write n ws.elements.length d := by
  unfold prepareElement
  dsimp only
  have hput : (ws.put n ws.elements.length .mult (.int le.mult)).Holds columns n _ :=
    put_holds h hi
  obtain ⟨hold, htab, hel, hfront⟩ := maskAndWeights_spec hput hin (fun _ hb => hb) hwf
  generalize (ws.put n ws.elements.length .mult (.int le.mult)).maskAndWeights columns
    le.tableKey = r at hold htab hel hfront
  obtain ⟨tables, ws₂⟩ := r
  dsimp only at hold htab hel hfront ⊢
  generalize hws₃ : (((ws₂.put n ws.elements.length .maskLeft (.ptr tables.maskLeft)).put n
    ws.elements.length .maskRight (.ptr tables.maskRight)).put n ws.elements.length .weightLeft
    (.ptr tables.weightLeft)).put n ws.elements.length .weightRight (.ptr tables.weightRight) = ws₃
  have hold₃ : ws₃.Holds columns n _ :=
    hws₃ ▸ put_holds (put_holds (put_holds (put_holds hold hi) hi) hi) hi
  have hel₃ : ws₃.elements = ws.elements := by rw [← hws₃]; exact hel
  obtain ⟨hold₄, hsome, hel₄, hfront₄⟩ := copyFilter_spec hold₃ hm
    (by rw [hel₃]; exact List.subset_cons_self _ _) (by rwa [hel₃])
  generalize ws₃.copyFilter le.mult = r at hold₄ hsome hel₄ hfront₄
  obtain ⟨copyFilter, ws₄⟩ := r
  dsimp only at hold₄ hsome hel₄ hfront₄ ⊢
  refine ⟨{ le with tables, copyFilter }, rfl, ⟨htab, hsome⟩, ?_, ?_, fun w => ?_⟩
  · rw [putCopyFilter_elements, hel₄, hel₃]
  · refine (putCopyFilter_holds hold₄ hi copyFilter).congr fun b => ?_
    simp only [Element.blocks, ListEntry.tableKey, List.mem_append, List.mem_cons]
    tauto
  · refine (front_putCopyFilter hi copyFilter).trans ?_
    rw [hfront₄, ← hws₃, front_put hi, front_put hi, front_put hi, front_put hi, hfront,
      front_put hi]
    simp only [or_assoc]
    refine or_congr_right ⟨?_, ?_⟩
    · rintro (rfl | rfl | rfl | rfl | rfl | ⟨p, rfl, rfl⟩)
      exacts [⟨.mult, _, rfl, rfl⟩, ⟨.maskLeft, _, rfl, rfl⟩, ⟨.maskRight, _, rfl, rfl⟩,
        ⟨.weightLeft, _, rfl, rfl⟩, ⟨.weightRight, _, rfl, rfl⟩, ⟨.copyFilter, _, rfl, rfl⟩]
    · rintro ⟨slot, d, hd, rfl⟩
      cases slot <;> simp [Element.stored] at hd <;> grind

end Workspace

/-! ## The whole batch -/

/-- What is found in a slot of a batch element. -/
def Workspace.loadSlot (ws : Workspace) (n i : Nat) (slot : Slot) : Loaded Datum :=
  load ws.writes (slot.offset n i) slot.size

/-- What holds after some of the batch elements. -/
structure Prepared (columns : TableKey → Columns) (n : Nat) (ws : Workspace)
    (entries : List ListEntry) : Prop where
  entries_eq : ws.elements.map Element.toListEntry = entries
  laid : ws.Holds columns n (ws.elements.flatMap Element.blocks)
  wellFormed : ∀ e ∈ ws.elements, e.WellFormed columns
  front : ∀ w, ws.Front n w ↔ ∃ (i : Nat) (e : Element) (slot : Slot) (d : Datum),
    ws.elements[i]? = some e ∧ e.stored slot = some d ∧ w = slot.write n i d

namespace Prepared

variable {n i : Nat} {ws : Workspace} {entries : List ListEntry} {e : Element}

theorem start (n : Nat) :
    Prepared columns n { cur := headerBytes n, elements := [], writes := [] } [] where
  entries_eq := rfl
  laid := .nil _
  wellFormed _ he := absurd he List.not_mem_nil
  front w := by simp [Workspace.Front]

theorem step (h : Prepared columns n ws entries) {entry : ListEntry} (hm : 0 < entry.mult)
    (hin : (columns entry.tableKey).Inside) (hi : entries.length < n) :
    Prepared columns n (ws.prepareElement columns n entry) (entries ++ [entry]) := by
  have hlen : ws.elements.length = entries.length := by
    rw [← h.entries_eq, List.length_map]
  obtain ⟨e, hentry, hwf, hel, hold, hfront⟩ :=
    Workspace.prepareElement_spec hm hin (hlen ▸ hi) h.laid h.wellFormed
  constructor
  · rw [hel, List.map_append, h.entries_eq, ← hentry]
    rfl
  · refine hold.congr fun b => ?_
    rw [hel, List.flatMap_append, List.flatMap_singleton, List.mem_append, List.mem_append, or_comm]
  · intro e' he'
    rw [hel] at he'
    rcases List.mem_append.mp he' with he' | he'
    · exact h.wellFormed e' he'
    · rwa [List.mem_singleton.mp he']
  · intro w
    rw [hfront, h.front, hel]
    constructor
    · rintro (⟨i, e', slot, d, he', hd⟩ | ⟨slot, d, hd⟩)
      · have hlt := (List.getElem?_eq_some_iff.mp he').1
        exact ⟨i, e', slot, d, by rwa [List.getElem?_append_left hlt], hd⟩
      · exact ⟨ws.elements.length, e, slot, d, by simp, hd⟩
    · rintro ⟨i, e', slot, d, he', hd⟩
      rcases Nat.lt_or_ge i ws.elements.length with hlt | hge
      · exact .inl ⟨i, e', slot, d, by rwa [List.getElem?_append_left hlt] at he', hd⟩
      · rw [List.getElem?_append_right hge, List.getElem?_singleton] at he'
        obtain ⟨hzero, heq⟩ := Option.ite_none_right_eq_some.mp he'
        obtain rfl := Option.some.inj heq
        obtain rfl : i = ws.elements.length := by omega
        exact .inr ⟨slot, d, hd⟩

theorem run (more : List ListEntry) :
    ∀ {ws entries}, Prepared columns n ws entries → entries.length + more.length ≤ n →
      (∀ e ∈ more, 0 < e.mult ∧ (columns e.tableKey).Inside) →
      Prepared columns n (more.foldl (Workspace.prepareElement columns n) ws) (entries ++ more) := by
  induction more with
  | nil =>
    intro ws entries h _ _
    rwa [List.append_nil]
  | cons entry more ih =>
    intro ws entries h hlen hmore
    rw [List.length_cons] at hlen
    obtain ⟨hm, hin⟩ := hmore entry List.mem_cons_self
    have hstep := h.step hm hin (by omega)
    have hrun := ih hstep (by rw [List.length_append, List.length_singleton]; omega)
      fun e he => hmore e (List.mem_cons_of_mem _ he)
    rwa [List.append_assoc] at hrun

theorem exists_element (h : Prepared columns n ws entries) {entry : ListEntry}
    (hi : entries[i]? = some entry) : ∃ e, ws.elements[i]? = some e ∧ e.toListEntry = entry := by
  rw [← h.entries_eq, List.getElem?_map] at hi
  exact Option.map_eq_some_iff.mp hi

/-- What is found in a slot. -/
theorem load_slot (h : Prepared columns n ws entries) (hlen : entries.length = n)
    (he : ws.elements[i]? = some e) (slot : Slot) :
    ws.loadSlot n i slot = ((e.stored slot).map .datum).getD .zero := by
  have hle : ws.elements.length = n := by rw [← hlen, ← h.entries_eq, List.length_map]
  have hi := (List.getElem?_eq_some_iff.mp he).1
  have hfront {w} (hw : w ∈ ws.writes) (hover : w.Overlaps (slot.offset n i) slot.size) :
      ∃ d, e.stored slot = some d ∧ w = slot.write n i d := by
    have hend := Slot.write_le (hle ▸ hi) slot (.int 0)
    have hlt : w.offset < headerBytes n := Nat.lt_of_lt_of_le hover.1 hend
    obtain ⟨j, e', slot', d, he', hd, rfl⟩ := (h.front w).mp ⟨hw, hlt⟩
    have hj := (List.getElem?_eq_some_iff.mp he').1
    obtain ⟨rfl, rfl⟩ := Slot.eq_of_overlaps (hle ▸ hj) (hle ▸ hi) hover
    obtain rfl := Option.some.inj (he.symm.trans he')
    exact ⟨d, hd, rfl⟩
  cases hd : e.stored slot with
  | none =>
    refine load_eq_zero fun w hw hover => ?_
    obtain ⟨d, hd', -⟩ := hfront hw hover
    exact absurd (hd.symm.trans hd') nofun
  | some d =>
    have hmem := ((h.front _).mpr ⟨i, e, slot, d, he, hd, rfl⟩).1
    refine load_eq_datum (w := slot.write n i d) hmem slot.size_pos fun w hw hover => ?_
    obtain ⟨d', hd', rfl⟩ := hfront hw hover
    rw [Option.some.inj (hd.symm.trans hd')]

/-- What is found in a block that an element points to. -/
theorem load_block (h : Prepared columns n ws entries) (he : e ∈ ws.elements) {b : BlockKey × Nat}
    (hb : b ∈ e.blocks) {o k : Nat} (ho : o + k ≤ b.1.bytes columns) :
    load ws.writes (b.2 + o) k = load (b.1.writes columns 0) o k :=
  h.laid.load_eq BlockKey.writes_shift (List.mem_flatMap.mpr ⟨e, he, hb⟩) ho

end Prepared

theorem prepareEntries_prepared (columns : TableKey → Columns) (entry : Roi → ListEntry)
    (h : ∀ roi, 0 < (entry roi).mult ∧ (columns (entry roi).tableKey).Inside) (rois : List Roi) :
    Prepared columns rois.length (prepareEntries columns (rois.map entry)) (rois.map entry) := by
  have hlength : (rois.map entry).length = rois.length := List.length_map _
  unfold prepareEntries
  rw [hlength]
  refine Prepared.run _ (.start _) (by simp) fun e he => ?_
  obtain ⟨roi, -, rfl⟩ := List.mem_map.mp he
  exact h roi

theorem prepareMaskAndWeights_prepared (keep : Bool) (dst : Dst) (rois : List Roi) :
    Prepared TableKey.columns rois.length (prepareMaskAndWeights keep dst rois)
      (rois.map (listEntry keep dst)) :=
  prepareEntries_prepared TableKey.columns (listEntry keep dst)
    (fun roi => ⟨mult_pos roi.w_pos _, (TableKey.slotsInside roi.w_pos).inside⟩) rois

end CambriconGst.Easybang
