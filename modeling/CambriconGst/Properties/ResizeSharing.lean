import CambriconGst.Properties.ResizeLayout

/-!
# Shared tables

A batch element may get the pointers of an earlier one. What it finds there is what it would have
been given alone.

* `same_tables`, `same_copyFilter`: two workspaces, elements with the same entries in the lists
* `shared_tables_sound`: the batch, and the batch of one
-/

namespace CambriconGst.Easybang

open Lib

namespace Prepared

variable {columns : TableKey → Columns} {n n' : Nat} {ws ws' : Workspace}
  {entries entries' : List ListEntry} {e e' : Element}

/-- The tables of both are the same, byte by byte. -/
theorem same_tables (h : Prepared columns n ws entries)
    (h' : Prepared columns n' ws' entries')
    (he : e ∈ ws.elements) (he' : e' ∈ ws'.elements) (hentry : e.toListEntry = e'.toListEntry)
    {o k : Nat} (ho : o + k ≤ (columns e.tableKey).bytes) :
    load ws.writes (e.tables.maskLeft + o) k = load ws'.writes (e'.tables.maskLeft + o) k := by
  have hb : (.tables e.tableKey, e.tables.maskLeft) ∈ e.blocks := List.mem_cons_self
  have hb' : (.tables e'.tableKey, e'.tables.maskLeft) ∈ e'.blocks := List.mem_cons_self
  have hkey : e.tableKey = e'.tableKey := congrArg ListEntry.tableKey hentry
  have hload := h.load_block he hb (o := o) (k := k) ho
  have hload' := h'.load_block he' hb' (o := o) (k := k) (hkey ▸ ho)
  exact hload.trans (hkey ▸ hload'.symm)

theorem same_copyFilter (h : Prepared columns n ws entries)
    (h' : Prepared columns n' ws' entries')
    (he : e ∈ ws.elements) (he' : e' ∈ ws'.elements) (hentry : e.toListEntry = e'.toListEntry)
    {p p' : Nat} (hp : e.copyFilter = some p) (hp' : e'.copyFilter = some p') {o k : Nat}
    (ho : o + k ≤ copyFilterBytes e.mult) :
    load ws.writes (p + o) k = load ws'.writes (p' + o) k := by
  have hb : (.copyFilter e.mult, p) ∈ e.blocks := by simp [Element.blocks, hp]
  have hb' : (.copyFilter e'.mult, p') ∈ e'.blocks := by simp [Element.blocks, hp']
  have hmult : e.mult = e'.mult := congrArg ListEntry.mult hentry
  have hload := h.load_block he hb (o := o) (k := k) ho
  have hload' := h'.load_block he' hb' (o := o) (k := k) (hmult ▸ ho)
  exact hload.trans (hmult ▸ hload'.symm)

end Prepared

/-- Both have a pointer in the slot, and what it points to is the same in all `bytes` bytes. -/
def SameBlock (batch alone : Workspace) (n i : Nat) (slot : Slot) (bytes : Nat) : Prop :=
  ∃ p p', batch.loadSlot n i slot = .datum (.ptr p) ∧ alone.loadSlot 1 0 slot = .datum (.ptr p') ∧
    ∀ o k, o + k ≤ bytes → load batch.writes (p + o) k = load alone.writes (p' + o) k

namespace Prepared

variable {columns : TableKey → Columns} {i : Nat} {batch alone : Workspace}
  {entries : List ListEntry} {entry : ListEntry} {slot : Slot}

/-- A table that starts `a` bytes after the first one. -/
theorem sameBlock_table (h : Prepared columns entries.length batch entries)
    (h' : Prepared columns 1 alone [entry]) (hi : entries[i]? = some entry) (get : Tables → Nat)
    (a : Nat) {bytes : Nat} (hget : ∀ e : Element, e.stored slot = some (.ptr (get e.tables)))
    (hoff : ∀ start, get ((columns entry.tableKey).tablesAt start) = start + a)
    (hbytes : a + bytes ≤ (columns entry.tableKey).bytes) :
    SameBlock batch alone entries.length i slot bytes := by
  obtain ⟨e, he, hentry⟩ := h.exists_element hi
  obtain ⟨e', he', hentry'⟩ := h'.exists_element (i := 0) rfl
  have hmem := List.mem_of_getElem? he
  have hmem' := List.mem_of_getElem? he'
  have hkey : e.tableKey = entry.tableKey := congrArg ListEntry.tableKey hentry
  have hkey' : e'.tableKey = entry.tableKey := congrArg ListEntry.tableKey hentry'
  have hslot := h.load_slot rfl he slot
  have hslot' := h'.load_slot rfl he' slot
  rw [hget] at hslot hslot'
  refine ⟨get e.tables, get e'.tables, hslot, hslot', fun o k ho => ?_⟩
  rw [(h.wellFormed e hmem).tables, (h'.wellFormed e' hmem').tables, hkey, hkey', hoff, hoff,
    Nat.add_assoc, Nat.add_assoc]
  exact h.same_tables h' hmem hmem' (hentry.trans hentry'.symm) (by rw [hkey]; omega)

theorem sameBlock_copyFilter (h : Prepared columns entries.length batch entries)
    (h' : Prepared columns 1 alone [entry]) (hi : entries[i]? = some entry) :
    SameBlock batch alone entries.length i .copyFilter (copyFilterBytes entry.mult) ∨
      batch.loadSlot entries.length i .copyFilter = .zero ∧
      alone.loadSlot 1 0 .copyFilter = .zero := by
  obtain ⟨e, he, hentry⟩ := h.exists_element hi
  obtain ⟨e', he', hentry'⟩ := h'.exists_element (i := 0) rfl
  have hmem := List.mem_of_getElem? he
  have hmem' := List.mem_of_getElem? he'
  have hmult : e.mult = entry.mult := congrArg ListEntry.mult hentry
  have hmult' : e'.mult = entry.mult := congrArg ListEntry.mult hentry'
  have hslot := h.load_slot rfl he .copyFilter
  have hslot' := h'.load_slot rfl he' .copyFilter
  have hsome : e.copyFilter.isSome ↔ e'.copyFilter.isSome := by
    rw [(h.wellFormed e hmem).copyFilter, (h'.wellFormed e' hmem').copyFilter, hmult, hmult']
  unfold Element.stored at hslot hslot'
  cases hp : e.copyFilter with
  | none =>
    have hp' : e'.copyFilter = none := by simpa [hp] using hsome
    rw [hp] at hslot
    rw [hp'] at hslot'
    exact .inr ⟨hslot, hslot'⟩
  | some p =>
    obtain ⟨p', hp'⟩ := Option.isSome_iff_exists.mp (hsome.mp (by rw [hp]; rfl))
    rw [hp] at hslot
    rw [hp'] at hslot'
    refine .inl ⟨p, p', hslot, hslot', fun o k ho => ?_⟩
    exact h.same_copyFilter h' hmem hmem' (hentry.trans hentry'.symm) hp hp' (by rwa [hmult])

end Prepared

/--
**The masks, the weights and the copy filter that a batch element has its pointers to are those that
it would be given alone; there is no pointer to a copy filter where it would be given none alone.**
-/
theorem shared_tables_sound (keep : Bool) (dst : Dst) (rois : List Roi) (i : Fin rois.length) :
    let batch := prepareMaskAndWeights keep dst rois
    let alone := prepareMaskAndWeights keep dst [rois.get i]
    let e := listEntry keep dst (rois.get i)
    let same := SameBlock batch alone rois.length i
    same .maskLeft e.tableKey.maskBytes ∧ same .maskRight e.tableKey.maskBytes ∧
      same .weightLeft e.tableKey.weightBytes ∧ same .weightRight e.tableKey.weightBytes ∧
      (same .copyFilter (copyFilterBytes e.mult) ∨
        batch.loadSlot rois.length i .copyFilter = .zero ∧
          alone.loadSlot 1 0 .copyFilter = .zero) := by
  intro batch alone entry same
  have h := prepareMaskAndWeights_prepared keep dst rois
  have h' : Prepared TableKey.columns 1 alone [entry] :=
    prepareMaskAndWeights_prepared keep dst [rois.get i]
  have hi : (rois.map (listEntry keep dst))[(i : Nat)]? = some entry := by simp [entry]
  have hbytes : entry.tableKey.columns.bytes = entry.tableKey.maskBytes + entry.tableKey.maskBytes +
    entry.tableKey.weightBytes + entry.tableKey.weightBytes := rfl
  have hstart (start : Nat) : (entry.tableKey.columns.tablesAt start).weightRight
      = start + entry.tableKey.maskBytes + entry.tableKey.maskBytes + entry.tableKey.weightBytes :=
    rfl
  have hlen : (rois.map (listEntry keep dst)).length = rois.length := List.length_map _
  rw [← hlen] at h
  simp only [same, ← hlen]
  refine ⟨h.sameBlock_table h' hi Tables.maskLeft 0 (fun _ => rfl) (fun _ => rfl) (by omega),
    h.sameBlock_table h' hi Tables.maskRight entry.tableKey.maskBytes (fun _ => rfl) (fun _ => rfl)
      (by omega),
    h.sameBlock_table h' hi Tables.weightLeft (entry.tableKey.maskBytes + entry.tableKey.maskBytes)
      (fun _ => rfl) (fun _ => Nat.add_assoc _ _ _) (by omega),
    h.sameBlock_table h' hi Tables.weightRight (entry.tableKey.maskBytes + entry.tableKey.maskBytes +
      entry.tableKey.weightBytes) (fun _ => rfl) (fun start => ?_) (by omega),
    h.sameBlock_copyFilter h' hi⟩
  rw [hstart]
  omega

end CambriconGst.Easybang
