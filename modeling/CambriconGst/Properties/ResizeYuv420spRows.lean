import CambriconGst.Easybang.ResizeYuv420sp
import Mathlib.Algebra.Order.Group.Nat
import Mathlib.Tactic.Ring

/-!
# The rows that the cores write

* `iterate_loopBody`: a core in the middle of its rows
* `core_last`: the row behind the loop is written without looking at the rows that there are
* `rows_right_iff`: all rows and no others are written only when there are as many for each core, and
  32 bits are enough for where the last one begins
-/

namespace CambriconGst.Easybang.ResizeYuv420sp.Launch

variable {l : Launch} {coreId : Nat}

@[simp]
theorem yStore_row (l : Launch) (coreId : Nat) (i : Int) :
    (l.yStore coreId i).row = coreId * l.rowseg + i :=
  rfl

@[simp]
theorem uvStore_row (l : Launch) (coreId : Nat) (i : Int) :
    (l.uvStore coreId i).row = coreId * (l.rowseg / 2 : Nat) + i :=
  rfl

/-! ## A core -/

/-- A core that has written `i` of its rows, with `s` rows to write. -/
theorem iterate_loopBody {s : Nat} (hs : l.coreRowSeg coreId = s) (i : Nat) :
    (l.loopBody coreId)^[i] .start = {
      dstIndex := min i s
      uvIndex := min (i / 2 : Nat) (s / 2 : Nat)
      parityC := i % 2 = 1
      yStores := (List.range i).map fun (k : Nat) => l.yStore coreId (min (k : Int) (s - 1))
      uvStores := (List.range (i / 2)).map fun (k : Nat) =>
        l.uvStore coreId (min (k : Int) (s / 2 : Nat)) } := by
  induction i with
  | zero =>
    simp only [CoreState.start, Function.iterate_zero, id, List.range_zero, List.map_nil]
    congr 1
  | succ i ih =>
    have hclamp : (if min (i : Int) s < (s : Int) - 1 then min (i : Int) s else (s : Int) - 1)
        = min (i : Int) (s - 1) := by
      split <;> omega
    have hnext : min (i : Int) (s - 1) + 1 = min ((i + 1 : ℕ) : Int) s := by omega
    rw [Function.iterate_succ_apply', ih]
    simp only [loopBody, hs, hclamp, hnext]
    rcases Nat.mod_two_eq_zero_or_one i with heven | hodd
    · have hsucc : (i + 1) % 2 = 1 := by omega
      have hhalf : (i + 1) / 2 = i / 2 := by omega
      simp [heven, hsucc, hhalf, List.range_succ]
    · have hsucc : (i + 1) % 2 = 0 := by omega
      have hhalf : (i + 1) / 2 = i / 2 + 1 := by omega
      simp [hodd, hsucc, hhalf, List.range_succ]
      rw [Int.tdiv_eq_ediv_of_nonneg (by omega)]
      omega

theorem rowseg_even (l : Launch) : l.rowseg % 2 = 0 := by
  unfold rowseg
  exact Nat.mul_mod_right 2 _

/-- What a core has written in the end. -/
theorem core_last (hcol : l.colseg = 0) (hpos : l.rowseg ≠ 0) {s : Nat}
    (hs : l.coreRowSeg coreId = s) :
    (l.core coreId).yStores = (List.range (l.rowseg - 1)).map (fun (k : Nat) =>
        l.yStore coreId (min (k : Int) (s - 1)))
          ++ [l.yStore coreId (min ((l.rowseg - 1 : Nat) : Int) s)] ∧
      (l.core coreId).uvStores = (List.range (l.rowseg / 2)).map (fun (k : Nat) =>
        l.uvStore coreId (min (k : Int) (s / 2 : Nat))) := by
  have heven := l.rowseg_even
  have hodd : (l.rowseg - 1) % 2 = 1 := by omega
  have hhalf : l.rowseg / 2 = (l.rowseg - 1) / 2 + 1 := by omega
  have hcore : l.core coreId = l.lastRow coreId ((l.loopBody coreId)^[l.rowseg - 1] .start) := by
    rw [core, if_neg (not_not_intro hcol), if_pos hpos]
  rw [hcore, iterate_loopBody hs]
  simp only [lastRow, hodd, decide_true, Bool.not_true, if_true, true_and]
  rw [hhalf, List.range_succ, List.map_append]
  rfl

/-! ## Shares -/

/-- There are as many rows for each core. -/
theorem rowseg_mul_of_dvd (h : 2 * l.coreDim ∣ l.dRow) : l.coreDim * l.rowseg = l.dRow := by
  have hrem : l.rowremain = 0 := Nat.mod_eq_zero_of_dvd h
  have hmul := Nat.mul_div_cancel' h
  rw [rowseg, hrem, if_neg (lt_irrefl 0), Nat.add_zero]
  calc l.coreDim * (2 * (l.dRow / (2 * l.coreDim)))
      = 2 * l.coreDim * (l.dRow / (2 * l.coreDim)) := by ring
    _ = l.dRow := hmul

theorem coreRowSeg_of_dvd (h : 2 * l.coreDim ∣ l.dRow) (hrow : l.dRow < 2 ^ 32)
    (hcore : coreId < l.coreDim) : l.coreRowSeg coreId = l.rowseg := by
  have hmul := rowseg_mul_of_dvd h
  have hle : l.rowseg * (coreId + 1) ≤ l.dRow := by
    rw [← hmul, Nat.mul_comm l.coreDim]
    exact Nat.mul_le_mul_left _ hcore
  have hrest : uint32 ((l.dRow : Int) - l.rowseg * coreId) = (l.dRow - l.rowseg * coreId : ℕ) := by
    rw [Nat.mul_succ] at hle
    rw [← Int.natCast_mul, ← Int.natCast_sub (by omega), uint32]
    omega
  rw [Nat.mul_succ] at hle
  simp only [coreRowSeg, hrest]
  split <;> omega

/-- Otherwise the shares are rounded up, and there is a core that the rows end at. -/
theorem lt_mul_rowseg (hdim : 0 < l.coreDim) (h : ¬2 * l.coreDim ∣ l.dRow) :
    l.dRow < l.coreDim * l.rowseg := by
  have hrem : 0 < l.rowremain := Nat.pos_of_ne_zero fun hzero => h (Nat.dvd_of_mod_eq_zero hzero)
  have hlt := Nat.lt_mul_div_succ l.dRow (show 0 < 2 * l.coreDim by omega)
  rw [rowseg, if_pos hrem]
  calc l.dRow < 2 * l.coreDim * (l.dRow / (2 * l.coreDim) + 1) := hlt
    _ = l.coreDim * (2 * (l.dRow / (2 * l.coreDim) + 1)) := by ring

theorem coreRowSeg_div (hrow : l.dRow < 2 ^ 32) (hpos : 0 < l.rowseg) :
    l.coreRowSeg (l.dRow / l.rowseg) = (l.dRow % l.rowseg : Nat) := by
  have hdiv := Nat.div_add_mod l.dRow l.rowseg
  have hmod := Nat.mod_lt l.dRow hpos
  have hrest : uint32 ((l.dRow : Int) - l.rowseg * (l.dRow / l.rowseg : Nat))
      = (l.dRow % l.rowseg : Nat) := by
    rw [← Int.natCast_mul, uint32]
    omega
  simp only [coreRowSeg, hrest]
  rw [if_neg (by omega)]

/-- That core writes the row behind the last. -/
theorem dRow_mem_yStores (hcol : l.colseg = 0) (hrow : l.dRow < 2 ^ 32) (hpos : 0 < l.rowseg) :
    ∃ o ∈ (l.core (l.dRow / l.rowseg)).yStores, o.row = l.dRow := by
  have hdiv := Nat.div_add_mod l.dRow l.rowseg
  have hmod := Nat.mod_lt l.dRow hpos
  rw [(core_last hcol hpos.ne' (coreRowSeg_div hrow hpos)).1]
  refine ⟨_, List.mem_append_right _ (List.mem_singleton.mpr rfl), ?_⟩
  rw [yStore_row, min_eq_right (by omega), ← Int.natCast_mul, Nat.mul_comm]
  omega

/-! ## Offsets -/

theorem yStore_offset (l : Launch) (coreId : Nat) (i : Int) :
    (l.yStore coreId i).offset = uint32 ((l.yStore coreId i).row * l.dCol) := by
  rw [yStore_row, yStore, Int.add_mul]

theorem uvStore_offset (l : Launch) (coreId : Nat) (i : Int) :
    (l.uvStore coreId i).offset = uint32 ((l.uvStore coreId i).row * l.dCol) := by
  rw [uvStore_row, uvStore, Int.add_mul]

/-- Where a row begins, when 32 bits are enough. -/
theorem uint32_natCast {x : Nat} (h : x < 2 ^ 32) : uint32 (x : Int) = x := by
  unfold uint32
  omega

/-- Until the last one, all rows begin where they are to. -/
theorem uint32_row {row : Nat} (hrow : row < l.dRow) (h : (l.dRow - 1) * l.dCol < 2 ^ 32) :
    uint32 ((row : Int) * l.dCol) = row * l.dCol := by
  have hle : row * l.dCol ≤ (l.dRow - 1) * l.dCol := Nat.mul_le_mul_right _ (by omega)
  rw [← Int.natCast_mul, uint32_natCast (hle.trans_lt h)]

theorem uint32_lt (x : Int) : uint32 x < 2 ^ 32 :=
  Int.emod_lt_of_pos x (by decide)

theorem exists_coreRowSeg (l : Launch) (coreId : Nat) : ∃ s : Nat, l.coreRowSeg coreId = s := by
  refine Int.eq_ofNat_of_zero_le ?_
  have hrest : 0 ≤ uint32 ((l.dRow : Int) - l.rowseg * coreId) := Int.emod_nonneg _ (by decide)
  unfold coreRowSeg
  dsimp only
  split
  · exact Int.natCast_nonneg _
  · exact hrest

/-- Whatever its rows are, a core stores at offsets of 32 bits. -/
theorem offset_lt {o : Store} (ho : o ∈ (l.core coreId).yStores) : o.offset < 2 ^ 32 := by
  by_cases hcol : l.colseg = 0
  · by_cases hpos : l.rowseg = 0
    · rw [core, if_neg (not_not_intro hcol), if_neg (not_not_intro hpos)] at ho
      exact absurd ho List.not_mem_nil
    · obtain ⟨s, hs⟩ := l.exists_coreRowSeg coreId
      rw [(core_last hcol hpos hs).1, List.mem_append, List.mem_map, List.mem_singleton] at ho
      rcases ho with ⟨k, -, rfl⟩ | rfl
      · exact uint32_lt _
      · exact uint32_lt _
  · rw [core, if_pos hcol] at ho
    exact absurd ho List.not_mem_nil

/-! ## All cores -/

/-- What the rows are to be: those of the image, each stored where it is by some core. -/
structure RowsRight (l : Launch) : Prop where
  intsFit : l.IntsFit
  y_lt : ∀ coreId < l.coreDim, ∀ o ∈ (l.core coreId).yStores, 0 ≤ o.row ∧ o.row < l.dRow
  uv_lt : ∀ coreId < l.coreDim, ∀ o ∈ (l.core coreId).uvStores,
    0 ≤ o.row ∧ o.row < (l.dRow / 2 : Nat)
  y_all : ∀ row < l.dRow, ∃ coreId < l.coreDim, ∃ o ∈ (l.core coreId).yStores,
    o.row = row ∧ o.offset = row * l.dCol
  uv_all : ∀ row < l.dRow / 2, ∃ coreId < l.coreDim, ∃ o ∈ (l.core coreId).uvStores,
    o.row = row ∧ o.offset = row * l.dCol

theorem rowsRight_of_dvd (hcol : l.sCol < maxSegment) (hrow : l.dRow < 2 ^ 32) (hpos : 2 ≤ l.dRow)
    (hfit : l.IntsFit) (hlast : (l.dRow - 1) * l.dCol < 2 ^ 32) (h : 2 * l.coreDim ∣ l.dRow) :
    l.RowsRight := by
  have hcolseg : l.colseg = 0 := Nat.div_eq_of_lt hcol
  have hmul := rowseg_mul_of_dvd h
  have heven := l.rowseg_even
  have hseg : l.rowseg ≠ 0 := by
    rintro hzero
    rw [hzero, Nat.mul_zero] at hmul
    omega
  -- the first row of a core, and the first row of the next
  have hnext {c : Nat} (hc : c < l.coreDim) : c * l.rowseg + l.rowseg ≤ l.dRow := by
    rw [← hmul, ← Nat.succ_mul]
    exact Nat.mul_le_mul_right _ hc
  have hhalf (c : Nat) : c * (l.rowseg / 2) * 2 = c * l.rowseg := by
    rw [Nat.mul_assoc, Nat.div_mul_cancel (Nat.dvd_of_mod_eq_zero heven)]
  have hcore {c : Nat} (hc : c < l.coreDim) :=
    core_last hcolseg hseg (coreRowSeg_of_dvd h hrow hc)
  refine ⟨hfit, ?_, ?_, ?_, ?_⟩
  · intro c hc o hmem
    have hle := hnext hc
    rw [(hcore hc).1, List.mem_append, List.mem_map, List.mem_singleton] at hmem
    rcases hmem with ⟨k, hk, rfl⟩ | rfl
    · have hk := List.mem_range.mp hk
      rw [yStore_row, ← Int.natCast_mul]
      omega
    · rw [yStore_row, ← Int.natCast_mul]
      omega
  · intro c hc o hmem
    have hle := hnext hc
    have hc2 := hhalf c
    rw [(hcore hc).2, List.mem_map] at hmem
    obtain ⟨k, hk, rfl⟩ := hmem
    have hk := List.mem_range.mp hk
    rw [uvStore_row, ← Int.natCast_mul]
    omega
  · intro row hlt
    have hc : row / l.rowseg < l.coreDim :=
      Nat.div_lt_of_lt_mul (by rwa [Nat.mul_comm, hmul])
    have hdiv := Nat.div_add_mod row l.rowseg
    have hmod := Nat.mod_lt row (Nat.pos_of_ne_zero hseg)
    rw [Nat.mul_comm] at hdiv
    obtain ⟨o, ho, hrowEq⟩ : ∃ o ∈ (l.core (row / l.rowseg)).yStores,
        o.row = row ∧ o.offset = uint32 (o.row * l.dCol) := by
      rw [(hcore hc).1]
      by_cases hend : row % l.rowseg = l.rowseg - 1
      · refine ⟨_, List.mem_append_right _ (List.mem_singleton.mpr rfl), ?_, yStore_offset _ _ _⟩
        rw [yStore_row, ← Int.natCast_mul]
        omega
      · refine ⟨_, List.mem_append_left _ (List.mem_map.mpr
          ⟨row % l.rowseg, List.mem_range.mpr (by omega), rfl⟩), ?_, yStore_offset _ _ _⟩
        rw [yStore_row, ← Int.natCast_mul]
        omega
    refine ⟨row / l.rowseg, hc, o, ho, hrowEq.1, ?_⟩
    rw [hrowEq.2, hrowEq.1, uint32_row hlt hlast]
  · intro row hlt
    have hpos2 : 0 < l.rowseg / 2 := by omega
    have hc : row / (l.rowseg / 2) < l.coreDim := by
      refine (Nat.div_lt_iff_lt_mul hpos2).mpr ?_
      have hall := hhalf l.coreDim
      omega
    have hdiv := Nat.div_add_mod row (l.rowseg / 2)
    have hmod := Nat.mod_lt row hpos2
    rw [Nat.mul_comm] at hdiv
    have hrowEq : (l.uvStore (row / (l.rowseg / 2))
        (min ((row % (l.rowseg / 2) : Nat) : Int) (l.rowseg / 2 : Nat))).row = row := by
      rw [uvStore_row, ← Int.natCast_mul]
      omega
    refine ⟨row / (l.rowseg / 2), hc, _, ?_, hrowEq, ?_⟩
    · rw [(hcore hc).2]
      exact List.mem_map.mpr ⟨row % (l.rowseg / 2), List.mem_range.mpr hmod, rfl⟩
    · rw [uvStore_offset, hrowEq, uint32_row (by omega) hlast]

/-- The last row is stored too. -/
theorem RowsRight.last_lt (h : l.RowsRight) (hpos : 2 ≤ l.dRow) : (l.dRow - 1) * l.dCol < 2 ^ 32 := by
  obtain ⟨coreId, -, o, ho, -, hoffset⟩ := h.y_all (l.dRow - 1) (by omega)
  have hlt := offset_lt ho
  rw [hoffset, ← Int.natCast_mul] at hlt
  exact_mod_cast hlt

/--
**The rows are written, and no others, exactly when they divide into pairs for each core**, a line of
the source fits in a segment, and the last row begins within 32 bits. With a remainder the core that
the rows end at goes on to the row behind the last; where the offset wraps around, a row in front is
written instead.
-/
theorem rows_right_iff (l : Launch) (hdim : 1 ≤ l.coreDim) (hrow : l.dRow < 2 ^ 32)
    (hpos : 2 ≤ l.dRow) :
    l.RowsRight ↔ 2 * l.coreDim ∣ l.dRow ∧ l.sCol < 8192 ∧ l.IntsFit ∧
      (l.dRow - 1) * l.dCol < 2 ^ 32 := by
  constructor
  · intro h
    have hcol : l.colseg = 0 := by
      by_contra hwide
      obtain ⟨coreId, -, o, hmem, -⟩ := h.y_all 0 (by omega)
      rw [core, if_pos hwide] at hmem
      exact absurd hmem List.not_mem_nil
    have hseg (hlt : l.dRow < l.coreDim * l.rowseg) : 0 < l.rowseg :=
      Nat.pos_of_ne_zero fun hzero => by
        rw [hzero, Nat.mul_zero] at hlt
        omega
    refine ⟨?_, (Nat.div_eq_zero_iff.mp hcol).resolve_left (by decide), h.intsFit, ?_⟩
    · by_contra hdvd
      have hlt := lt_mul_rowseg hdim hdvd
      have hcore : l.dRow / l.rowseg < l.coreDim := (Nat.div_lt_iff_lt_mul (hseg hlt)).mpr hlt
      obtain ⟨o, ho, hbehind⟩ := dRow_mem_yStores hcol hrow (hseg hlt)
      have hbefore := h.y_lt _ hcore o ho
      omega
    · exact h.last_lt hpos
  · rintro ⟨hdvd, hcol, hfit, hlast⟩
    exact rowsRight_of_dvd hcol hrow hpos hfit hlast hdvd

/-- No image below 2^31 rows has too many. -/
theorem intsFit_of_lt (hdim : 1 ≤ l.coreDim) (hpos : 2 ≤ l.dRow) (hlt : l.dRow < 2 ^ 31)
    (h : 2 * l.coreDim ∣ l.dRow) : l.IntsFit := by
  have hmul := rowseg_mul_of_dvd h
  have hle := Nat.le_of_dvd (by omega) h
  have hseg : l.rowseg ≤ l.coreDim * l.rowseg := Nat.le_mul_of_pos_left _ hdim
  have hprev : (l.coreDim - 1) * l.rowseg ≤ l.coreDim * l.rowseg :=
    Nat.mul_le_mul_right _ (Nat.sub_le _ _)
  exact ⟨by omega, by omega, by omega⟩

/-- Eight rows for the four cores of a cluster. -/
theorem rows_right_eight : RowsRight { sCol := 16, dRow := 8, dCol := 12, coreDim := 4 } :=
  (rows_right_iff _ (by decide) (by decide) (by decide)).mpr
    ⟨by decide, by decide, ⟨by decide, by decide, by decide⟩, by decide⟩

/-- Six rows for two cores: the second one writes the seventh. -/
theorem six_rows_wrong :
    ¬∀ l : Launch, 1 ≤ l.coreDim → l.dRow < 2 ^ 32 → 2 ≤ l.dRow → l.dRow % 2 = 0 → l.RowsRight := by
  intro h
  have hlt := (h { sCol := 16, dRow := 6, dCol := 12, coreDim := 2 } (by decide) (by decide)
    (by decide) (by decide)).y_lt 1 (by decide) { row := 6, offset := 72 } (by decide)
  exact absurd hlt.2 (by decide)

end CambriconGst.Easybang.ResizeYuv420sp.Launch
