import CambriconGst.Properties.ResizeLayout
import CambriconGst.Properties.ResizeRow

/-!
# What the kernel finds in the masks and weights

The groups that the kernel collects by, and the weights that it blends with, are what the host put
at the pointers of the batch element.

* `Table.load_eq`: a pixel of a table
* `Prepared.table_found`: the tables of each batch element
-/

namespace CambriconGst.Easybang

open Lib

/-- One of the four tables of a key. -/
inductive Table where
  | mask (m : Mask)
  | weight (m : Mask)
deriving DecidableEq, Repr

namespace Table

/-- The slot that holds the pointer. -/
def slot : Table → Slot
  | mask .left => .maskLeft
  | mask .right => .maskRight
  | weight .left => .weightLeft
  | weight .right => .weightRight

/-- Where the table starts, among those that are laid down together. -/
def offset (c : Columns) : Table → Nat
  | mask .left => 0
  | mask .right => c.maskBytes
  | weight .left => c.maskBytes + c.maskBytes
  | weight .right => c.maskBytes + c.maskBytes + c.weightBytes

/-- How many pixels the table has. -/
def length (c : Columns) : Table → Nat
  | mask _ => c.mult * c.evenW
  | weight _ => c.dstRoiW

/-- What the host writes to the channels of a pixel, before it becomes a half. -/
def value (c : Columns) : Table → Nat → Option ℚ
  | mask m, slot => if c.group m slot then some 1 else none
  | weight .left, d => some (c.leftWeight d)
  | weight .right, d => some (c.rightWeight d)

def write (c : Columns) (t : Table) (j ch : Nat) (q : ℚ) : Write Datum where
  offset := t.offset c + (j * 4 + ch) * 2
  size := 2
  datum := toHalf q

variable {c : Columns} {t t' : Table} {j j' ch ch' : Nat} {q : ℚ} {w : Write Datum}

theorem value_mask_eq_some_iff {m : Mask} : (mask m).value c j = some q ↔ c.group m j ∧ q = 1 := by
  unfold value
  rw [Option.ite_none_right_eq_some, Option.some.injEq, eq_comm (a := q)]

theorem mem_pixel {table index : Nat} :
    w ∈ pixel table index q ↔
      ∃ ch < 4, w = { offset := table + (index * 4 + ch) * 2, size := 2, datum := toHalf q } := by
  simp only [pixel, List.mem_map, List.mem_range, eq_comm]

/-- What the body of the loop writes, table by table. -/
theorem mem_tableColumn {d : Nat} :
    w ∈ tableColumn c (c.tablesAt 0) d ↔ ∃ ch < 4,
      w = (mask .left).write c (c.maskLeftIndex d) ch 1 ∨
      c.maskRightIndex d < (c.w + c.parity) * c.mult ∧
        w = (mask .right).write c (c.maskRightIndex d) ch 1 ∨
      w = (weight .left).write c d ch (c.leftWeight d) ∨
      w = (weight .right).write c d ch (c.rightWeight d) := by
  have hright : w ∈ (if c.maskRightIndex d < (c.w + c.parity) * c.mult then
      pixel (c.tablesAt 0).maskRight (c.maskRightIndex d) 1 else []) ↔
      c.maskRightIndex d < (c.w + c.parity) * c.mult ∧
        w ∈ pixel (c.tablesAt 0).maskRight (c.maskRightIndex d) 1 := by
    split
    · next h => rw [and_iff_right h]
    · next h => simp [h]
  rw [tableColumn, List.mem_append, List.mem_append, List.mem_append, hright]
  simp only [mem_pixel, write, offset, Columns.tablesAt, Nat.zero_add, or_assoc]
  grind

/-- The host writes the values of the four tables, and nothing else. -/
theorem mem_tableWrites (hin : c.SlotsInside) :
    w ∈ tableWrites c 0 ↔ ∃ (t : Table) (j ch : Nat) (q : ℚ), j < t.length c ∧ ch < 4 ∧
      t.value c j = some q ∧ w = t.write c j ch q := by
  unfold tableWrites
  rw [List.mem_flatMap]
  constructor
  · rintro ⟨d, hd, hmem⟩
    have hd := List.mem_range.mp hd
    obtain ⟨ch, hch, rfl | ⟨hlt, rfl⟩ | rfl | rfl⟩ := mem_tableColumn.mp hmem
    · refine ⟨mask .left, _, ch, 1, hin d hd, hch, ?_, rfl⟩
      exact value_mask_eq_some_iff.mpr ⟨Columns.group_left_iff.mpr ⟨d, hd, rfl⟩, rfl⟩
    · refine ⟨mask .right, _, ch, 1, hlt.trans_le c.maskEnd_le, hch, ?_, rfl⟩
      refine value_mask_eq_some_iff.mpr ⟨Columns.group_right_iff.mpr ⟨d, hd, rfl, ?_⟩, rfl⟩
      rwa [Nat.mul_comm c.mult]
    · exact ⟨weight .left, d, ch, _, hd, hch, rfl, rfl⟩
    · exact ⟨weight .right, d, ch, _, hd, hch, rfl, rfl⟩
  · rintro ⟨t, j, ch, q, hj, hch, hvalue, rfl⟩
    rcases t with (_ | _) | (_ | _)
    · obtain ⟨hgroup, rfl⟩ := value_mask_eq_some_iff.mp hvalue
      obtain ⟨d, hd, rfl⟩ := Columns.group_left_iff.mp hgroup
      exact ⟨d, List.mem_range.mpr hd, mem_tableColumn.mpr ⟨ch, hch, .inl rfl⟩⟩
    · obtain ⟨hgroup, rfl⟩ := value_mask_eq_some_iff.mp hvalue
      obtain ⟨d, hd, rfl, hlt⟩ := Columns.group_right_iff.mp hgroup
      rw [Nat.mul_comm c.mult (_ + _)] at hlt
      exact ⟨d, List.mem_range.mpr hd, mem_tableColumn.mpr ⟨ch, hch, .inr (.inl ⟨hlt, rfl⟩)⟩⟩
    · obtain rfl := Option.some.inj hvalue
      exact ⟨j, List.mem_range.mpr hj, mem_tableColumn.mpr ⟨ch, hch, .inr (.inr (.inl rfl))⟩⟩
    · obtain rfl := Option.some.inj hvalue
      exact ⟨j, List.mem_range.mpr hj, mem_tableColumn.mpr ⟨ch, hch, .inr (.inr (.inr rfl))⟩⟩

/-- No two channels of the tables share a byte. -/
theorem eq_of_overlaps (hj : j < t.length c) (hj' : j' < t'.length c) (hch : ch < 4) (hch' : ch' < 4)
    (h : (t.write c j ch q).Overlaps (t'.offset c + (j' * 4 + ch') * 2) 2) :
    t = t' ∧ j = j' ∧ ch = ch' := by
  have hmask : c.maskBytes = c.mult * c.evenW * 4 * 2 := rfl
  have hweight : c.weightBytes = c.dstRoiW * 4 * 2 := rfl
  rcases t with (_ | _) | (_ | _) <;> rcases t' with (_ | _) | (_ | _) <;>
    simp only [Write.Overlaps, write, offset, length, reduceCtorEq, true_and, false_and,
      Table.mask.injEq, Table.weight.injEq] at h hj hj' ⊢ <;> omega

/-- What lies in a channel of a pixel. -/
theorem load_eq (hin : c.SlotsInside) (hj : j < t.length c) (hch : ch < 4) :
    load (tableWrites c 0) (t.offset c + (j * 4 + ch) * 2) 2
      = ((t.value c j).map fun q => .datum (toHalf q)).getD .zero := by
  have hwritten {w} (hmem : w ∈ tableWrites c 0)
      (hover : w.Overlaps (t.offset c + (j * 4 + ch) * 2) 2) :
      ∃ q, t.value c j = some q ∧ w = t.write c j ch q := by
    obtain ⟨t', j', ch', q, hj', hch', hvalue, rfl⟩ := (mem_tableWrites hin).mp hmem
    obtain ⟨rfl, rfl, rfl⟩ := eq_of_overlaps hj' hj hch' hch hover
    exact ⟨q, hvalue, rfl⟩
  cases hvalue : t.value c j with
  | none =>
    refine load_eq_zero fun w hmem hover => ?_
    obtain ⟨q, hq, -⟩ := hwritten hmem hover
    exact absurd (hvalue.symm.trans hq) nofun
  | some q =>
    have hmem := (mem_tableWrites hin).mpr ⟨t, j, ch, q, hj, hch, hvalue, rfl⟩
    refine load_eq_datum hmem Nat.two_pos fun w hmem' hover => ?_
    obtain ⟨q', hq', rfl⟩ := hwritten hmem' hover
    rw [Option.some.inj (hvalue.symm.trans hq')]

theorem offset_add_le (hj : j < t.length c) (hch : ch < 4) :
    t.offset c + (j * 4 + ch) * 2 + 2 ≤ c.bytes := by
  have hmask : c.maskBytes = c.mult * c.evenW * 4 * 2 := rfl
  have hweight : c.weightBytes = c.dstRoiW * 4 * 2 := rfl
  rcases t with (_ | _) | (_ | _) <;>
    simp only [offset, length, Columns.bytes] at hj ⊢ <;> omega

end Table

/--
**For each batch element the groups that the kernel collects by and the weights that it blends with
are what it loads from the pointers in the workspace, in all four channels.**
-/
theorem Prepared.table_found {columns : TableKey → Columns} {n i : Nat} {ws : Workspace}
    {entries : List ListEntry} {entry : ListEntry} (h : Prepared columns n ws entries)
    (hlen : entries.length = n) (hi : entries[i]? = some entry)
    (hin : (columns entry.tableKey).SlotsInside) (t : Table) :
    ∃ p, ws.loadSlot n i t.slot = .datum (.ptr p) ∧
      ∀ j < t.length (columns entry.tableKey), ∀ ch < 4, load ws.writes (p + (j * 4 + ch) * 2) 2
        = ((t.value (columns entry.tableKey) j).map fun q => .datum (toHalf q)).getD .zero := by
  obtain ⟨e, he, rfl⟩ := h.exists_element hi
  have hmem := List.mem_of_getElem? he
  have hslot := h.load_slot hlen he t.slot
  have htables := (h.wellFormed e hmem).tables
  have hstored : e.stored t.slot
      = some (.ptr (e.tables.maskLeft + t.offset (columns e.tableKey))) := by
    rcases t with (_ | _) | (_ | _) <;>
      simp only [Table.slot, Table.offset, Element.stored, Nat.add_zero] <;>
      rw [htables] <;> simp only [Columns.tablesAt, Nat.add_assoc]
  rw [hstored] at hslot
  refine ⟨_, hslot, fun j hj ch hch => ?_⟩
  have hblock : (.tables e.tableKey, e.tables.maskLeft) ∈ e.blocks := List.mem_cons_self
  rw [← Table.load_eq hin hj hch, Nat.add_assoc]
  exact h.load_block hmem hblock (Table.offset_add_le hj hch)

end CambriconGst.Easybang
