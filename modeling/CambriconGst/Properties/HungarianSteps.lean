import CambriconGst.Properties.HungarianInvariant
import Mathlib.Tactic.Abel

/-!
# The Hungarian steps keep the invariants

* `scanColumns_spec`: a pass of step 3 primes zeros, or reaches a zero to augment from
* `step4_spec`: the alternating path ends, and adds one star
* `step5_spec`: the smallest uncovered element moves into the potentials
-/

namespace CambriconGst.Hungarian

open Lib

variable {R C : Nat} {K : Type}

/-! ## Counting -/

/-- Rows not covered yet. -/
def uncoveredRows (w : Workspace R C K) : Finset (Fin R) :=
  Finset.univ.filter fun r => w.coveredRows r = false

theorem mem_uncoveredRows {w : Workspace R C K} {r : Fin R} :
    r ∈ uncoveredRows w ↔ w.coveredRows r = false := by
  simp [uncoveredRows]

/-- Columns with a star. -/
def starredColumns (star : Fin R → Fin C → Bool) : Finset (Fin C) :=
  Finset.univ.filter fun c => ∃ r, star r c = true

theorem mem_starredColumns {star : Fin R → Fin C → Bool} {c : Fin C} :
    c ∈ starredColumns star ↔ ColStarred star c := by
  simp [starredColumns, ColStarred]

/-! ## The search of step 5 -/

/-- The values step 5 searches. -/
def uncoveredValues (w : Workspace R C K) : Set K :=
  {v | ∃ r c, w.coveredRows r = false ∧ w.coveredColumns c = false ∧ w.distMatrix r c = v}

theorem smallestUncovered_lowersTo [LinearOrder K] (w : Workspace R C K) :
    LowersTo (uncoveredValues w) fun h => (List.finRange R).foldl (fun h row =>
      if w.coveredRows row then h
      else (List.finRange C).foldl (fun h col =>
        if w.coveredColumns col then h
        else if w.distMatrix row col < h then w.distMatrix row col else h) h) h := by
  have hcell : ∀ (r : Fin R) (c : Fin C),
      LowersTo {v | w.coveredColumns c = false ∧ w.distMatrix r c = v} fun h =>
        if w.coveredColumns c then h
        else if w.distMatrix r c < h then w.distMatrix r c else h := by
    intro r c
    cases w.coveredColumns c with
    | true => exact LowersTo.skip.congr (by simp)
    | false => exact (LowersTo.value (w.distMatrix r c)).congr (by simp [eq_comm])
  have hrow : ∀ r : Fin R,
      LowersTo {v | w.coveredRows r = false ∧ ∃ c, w.coveredColumns c = false ∧
        w.distMatrix r c = v} fun h =>
          if w.coveredRows r then h
          else (List.finRange C).foldl (fun h col =>
            if w.coveredColumns col then h
            else if w.distMatrix r col < h then w.distMatrix r col else h) h := by
    intro r
    cases w.coveredRows r with
    | true => exact LowersTo.skip.congr (by simp)
    | false => exact (LowersTo.foldl (hcell r) (List.finRange C)).congr (by simp)
  exact (LowersTo.foldl hrow (List.finRange R)).congr (by simp [uncoveredValues])

/-! ## Step 3 -/

theorem card_uncoveredRows_primeAndCover {w : Workspace R C K} {row : Fin R} {col starCol : Fin C}
    (hrow : w.coveredRows row = false) :
    (uncoveredRows (primeAndCover w row col starCol)).card < (uncoveredRows w).card := by
  refine Finset.card_lt_card (Finset.ssubset_iff_of_subset ?_ |>.mpr ⟨row, ?_, ?_⟩)
  · intro r hr
    rw [mem_uncoveredRows] at hr ⊢
    simp only [primeAndCover, Function.update_apply] at hr
    split at hr
    · exact Bool.noConfusion hr
    · exact hr
  · exact mem_uncoveredRows.mpr hrow
  · simp [mem_uncoveredRows, primeAndCover]

variable [AddCommGroup K]

/-- A zero in a row without a star is one to augment from. -/
theorem path_of_cover {w : Workspace R C K} (h : Cover w) {row : Fin R} {col : Fin C}
    (hcol : w.coveredColumns col = false) (hz : w.distMatrix row col = 0)
    (hfree : ∀ c, w.starMatrix row c = false) :
    Path { w with primeMatrix := setEntry w.primeMatrix row col true } row col where
  free := by
    rintro ⟨c, hc⟩
    rw [show w.starMatrix row c = false from hfree c] at hc
    exact Bool.noConfusion hc
  zero := hz
  uncovered := hcol
  covered := fun c hc => h.colStarred hc
  primed := fun r c hr hc => by
    have hcr : w.coveredRows r = true := by
      by_contra hn
      have : w.coveredColumns c = true := (h.col c).mpr ⟨r, hr, by simpa using hn⟩
      rw [show w.coveredColumns c = false from hc] at this
      exact Bool.noConfusion this
    obtain ⟨c', hc'⟩ := h.primed r hcr
    exact ⟨c', setEntry_true_of hc' row col⟩
  prime := fun r c hr hp => by
    simp only [setEntry_apply, if_neg fun he : r = row ∧ c = col => hr he.1] at hp
    obtain ⟨h1, h2, -⟩ := h.prime r c hp
    exact ⟨h1, h2⟩
  rank := by
    obtain ⟨rank, hrank⟩ := h.rank
    refine ⟨rank, fun r c r' hr hp hr' => ?_⟩
    simp only [setEntry_apply, if_neg fun he : r = row ∧ c = col => hr he.1] at hp
    exact hrank r c r' hp hr'

variable [LinearOrder K]

/-- Priming a zero whose row has a star keeps the covers right. -/
theorem primeAndCover_cover {w : Workspace R C K} (hs : Stars w.distMatrix w.starMatrix)
    (h : Cover w) {row : Fin R} {col starCol : Fin C} (hcol : w.coveredColumns col = false)
    (hrow : w.coveredRows row = false) (hz : w.distMatrix row col = 0)
    (hstar : w.starMatrix row starCol = true) : Cover (primeAndCover w row col starCol) := by
  have hsc : w.coveredColumns starCol = true := (h.col starCol).mpr ⟨row, hstar, hrow⟩
  have hne : col ≠ starCol := fun he => by
    rw [he, hsc] at hcol
    exact Bool.noConfusion hcol
  -- the row is covered now and the column of its star is not; all else stays
  obtain ⟨rank, hrank⟩ := h.rank
  constructor
  · intro c
    simp only [primeAndCover, Function.update_apply]
    by_cases hc : c = starCol
    · subst hc
      refine ⟨fun hf => by simp at hf, ?_⟩
      rintro ⟨r, hr, hu⟩
      have : r = row := hs.col r row c hr hstar
      simp [this] at hu
    · rw [if_neg hc, h.col c]
      refine exists_congr fun r => and_congr_right fun hr => ?_
      have : r ≠ row := fun he => hc (hs.row row c starCol (he ▸ hr) hstar)
      rw [if_neg this]
  · intro r
    simp only [primeAndCover, Function.update_apply]
    split
    · next he => exact fun _ => ⟨starCol, he ▸ hstar⟩
    · exact h.row r
  · intro r
    simp only [primeAndCover, Function.update_apply]
    split
    · next he => exact fun _ => ⟨col, by rw [he]; exact setEntry_self ..⟩
    · intro hr
      obtain ⟨c, hc⟩ := h.primed r hr
      exact ⟨c, setEntry_true_of hc row col⟩
  · intro r c hp
    simp only [primeAndCover, Function.update_apply, setEntry_apply] at hp ⊢
    split at hp
    · next he =>
      rw [he.1, he.2, if_neg hne]
      exact ⟨hz, hcol, by simp⟩
    · obtain ⟨h1, h2, h3⟩ := h.prime r c hp
      refine ⟨h1, ?_, ?_⟩
      · split
        · rfl
        · exact h2
      · split
        · rfl
        · exact h3
  · -- the new prime is the youngest
    refine ⟨Function.update rank row (Finset.univ.sup rank + 1), ?_⟩
    intro r c r' hp hr'
    simp only [primeAndCover, setEntry_apply] at hp
    split at hp
    · next he =>
      have hr'row : r' ≠ row := fun hrr => by
        have : c = starCol := hs.row row c starCol (hrr ▸ hr') hstar
        exact hne (he.2 ▸ this)
      rw [he.1, Function.update_self, Function.update_of_ne hr'row]
      exact Nat.lt_succ_of_le (Finset.le_sup (f := rank) (Finset.mem_univ r'))
    · obtain ⟨-, hcc, hcr⟩ := h.prime r c hp
      have hr : r ≠ row := fun he => by
        rw [he, hrow] at hcr
        exact Bool.noConfusion hcr
      have hr'row : r' ≠ row := fun hrr => by
        have : c = starCol := hs.row row c starCol (hrr ▸ hr') hstar
        rw [this, hsc] at hcc
        exact Bool.noConfusion hcc
      rw [Function.update_of_ne hr, Function.update_of_ne hr'row]
      exact hrank r c r' hp hr'

/-- What a pass of step 3 over some columns ends in. -/
def ScanSpec (cols : List (Fin C)) (zerosFound : Bool) (w : Workspace R C K) :
    Scan R C K → Prop
  | .augment w' row col =>
    w'.distMatrix = w.distMatrix ∧ w'.starMatrix = w.starMatrix ∧ Path w' row col ∧
      0 < (uncoveredRows w).card
  | .finished w' zerosFound' =>
    w'.distMatrix = w.distMatrix ∧ w'.starMatrix = w.starMatrix ∧ Cover w' ∧
      (uncoveredRows w').card ≤ (uncoveredRows w).card ∧
      (zerosFound' = true → zerosFound = true ∨
        (uncoveredRows w').card < (uncoveredRows w).card) ∧
      (zerosFound' = false → zerosFound = false ∧ w' = w ∧ ∀ col ∈ cols, ∀ row,
        w.coveredColumns col = false → w.coveredRows row = false → w.distMatrix row col ≠ 0)

/-- **A pass of step 3.** -/
theorem scanColumns_spec : ∀ (cols : List (Fin C)) (zerosFound : Bool) (w : Workspace R C K),
    Stars w.distMatrix w.starMatrix → Cover w →
    ScanSpec cols zerosFound w (scanColumns cols zerosFound w)
  | [], zerosFound, w, _, h => by
    refine ⟨rfl, rfl, h, le_rfl, Or.inl, fun hz => ⟨hz, rfl, ?_⟩⟩
    intro col hcol
    simp at hcol
  | col :: cols, zerosFound, w, hs, h => by
    rw [scanColumns]
    split
    · next hcov =>
      -- a covered column is passed over
      have ih := scanColumns_spec cols zerosFound w hs h
      revert ih
      cases scanColumns cols zerosFound w with
      | augment w' row c => exact id
      | finished w' zf =>
        rintro ⟨h1, h2, h3, h4, h5, h6⟩
        refine ⟨h1, h2, h3, h4, h5, fun hz => ?_⟩
        obtain ⟨hzf, hw, hno⟩ := h6 hz
        refine ⟨hzf, hw, fun c hc row hcc => ?_⟩
        rcases List.mem_cons.mp hc with rfl | hc
        · rw [hcov] at hcc
          exact Bool.noConfusion hcc
        · exact hno c hc row hcc
    · next hcov =>
      have hcov' : w.coveredColumns col = false := by simpa using hcov
      split
      · next hnone =>
        have ih := scanColumns_spec cols zerosFound w hs h
        revert ih
        cases scanColumns cols zerosFound w with
        | augment w' row c => exact id
        | finished w' zf =>
          rintro ⟨h1, h2, h3, h4, h5, h6⟩
          refine ⟨h1, h2, h3, h4, h5, fun hz => ?_⟩
          obtain ⟨hzf, hw, hno⟩ := h6 hz
          refine ⟨hzf, hw, fun c hc row hcc hcr => ?_⟩
          rcases List.mem_cons.mp hc with rfl | hc
          · have := List.find?_eq_none.mp hnone row (List.mem_finRange row)
            simpa [hcr] using this
          · exact hno c hc row hcc hcr
      · next row hsome =>
        have hp := List.find?_some hsome
        simp only [Bool.and_eq_true, Bool.not_eq_true', decide_eq_true_eq] at hp
        obtain ⟨hrow, hz⟩ := hp
        split
        · next hfree =>
          refine ⟨rfl, rfl, path_of_cover h hcov' hz (starInRow_none hfree), ?_⟩
          exact Finset.card_pos.mpr ⟨row, mem_uncoveredRows.mpr hrow⟩
        · next starCol hstar =>
          have hstar' := starInRow_some hstar
          have hlt : (uncoveredRows (primeAndCover w row col starCol)).card < (uncoveredRows w).card :=
            card_uncoveredRows_primeAndCover hrow
          have ih := scanColumns_spec cols true (primeAndCover w row col starCol) hs
            (primeAndCover_cover hs h hcov' hrow hz hstar')
          revert ih
          cases scanColumns cols true (primeAndCover w row col starCol) with
          | augment w' r c =>
            rintro ⟨h1, h2, h3, h4⟩
            exact ⟨h1, h2, h3, h4.trans hlt⟩
          | finished w' zf =>
            rintro ⟨h1, h2, h3, h4, -, h6⟩
            refine ⟨h1, h2, h3, h4.trans hlt.le, fun _ => Or.inr (h4.trans_lt hlt), fun hzf => ?_⟩
            exact absurd (h6 hzf).1 (by simp)

/-! ## Step 4 -/

/--
The alternating path halfway: the copy `newStar`, the column just given a star and the bound
below which no row was visited yet.
-/
structure Flipping (w : Workspace R C K) (row : Fin R) (rank : Fin R → Nat)
    (newStar : Fin R → Fin C → Bool) (col : Fin C) (bound : Nat) : Prop where
  zero : ∀ r c, newStar r c = true → w.distMatrix r c = 0
  rowUniq : ∀ r c c', newStar r c = true → newStar r c' = true → c = c'
  colUniq : ∀ r r' c, c ≠ col → newStar r c = true → newStar r' c = true → r = r'
  fresh : ∃ rn, newStar rn col = true ∧ w.starMatrix rn col = false ∧
    ∀ r, newStar r col = true → r = rn ∨ w.starMatrix r col = true
  unvisited : ∀ r, r ≠ row → rank r < bound → newStar r = w.starMatrix r
  below : ∀ r, w.starMatrix r col = true → rank r < bound
  moved : ∀ r c, newStar r c = true → w.starMatrix r c = true ∨ c = col ∨
    ∃ r', w.starMatrix r' c = true ∧ bound ≤ rank r'
  rows : ∀ r, RowStarred newStar r ↔ RowStarred w.starMatrix r ∨ r = row
  cols : ∀ c, ColStarred newStar c ↔ ColStarred w.starMatrix c ∨ c = col
  uncovered : w.coveredColumns col = false

/-- The stars after the path: one more, in a row and a column that had none. -/
structure Flipped (w : Workspace R C K) (row : Fin R) (newStar : Fin R → Fin C → Bool) :
    Prop where
  stars : Stars w.distMatrix newStar
  rows : ∀ r, RowStarred newStar r ↔ RowStarred w.starMatrix r ∨ r = row
  cols : ∃ col, ¬ColStarred w.starMatrix col ∧
    ∀ c, ColStarred newStar c ↔ ColStarred w.starMatrix c ∨ c = col

/-- The path starts by starring the zero it was entered with. -/
theorem flipping_start {w : Workspace R C K} (hs : Stars w.distMatrix w.starMatrix)
    {row : Fin R} {col : Fin C} (h : Path w row col) (rank : Fin R → Nat) :
    Flipping w row rank (setEntry w.starMatrix row col true) col (Finset.univ.sup rank + 1) := by
  have hfree : ∀ c, w.starMatrix row c = false := fun c => by
    by_contra hn
    exact h.free ⟨c, by simpa using hn⟩
  have hrow : ∀ r, r ≠ row → setEntry w.starMatrix row col true r = w.starMatrix r := by
    intro r hr
    funext c
    rw [setEntry_apply, if_neg fun he => hr he.1]
  have hcol : ∀ r c, c ≠ col → setEntry w.starMatrix row col true r c = w.starMatrix r c := by
    intro r c hc
    rw [setEntry_apply, if_neg fun he => hc he.2]
  constructor
  · intro r c hn
    rw [setEntry_apply] at hn
    split at hn
    · next he => rw [he.1, he.2]; exact h.zero
    · exact hs.zero r c hn
  · intro r c c' hn hn'
    by_cases hr : r = row
    · subst hr
      rw [setEntry_apply, hfree] at hn hn'
      split at hn <;> split at hn'
      · next he he' => rw [he.2, he'.2]
      all_goals simp at hn hn'
    · rw [hrow r hr] at hn hn'
      exact hs.row r c c' hn hn'
  · intro r r' c hc hn hn'
    rw [hcol _ c hc] at hn hn'
    exact hs.col r r' c hn hn'
  · refine ⟨row, setEntry_self .., hfree col, fun r hn => ?_⟩
    by_cases hr : r = row
    · exact Or.inl hr
    · rw [hrow r hr] at hn
      exact Or.inr hn
  · exact fun r hr _ => hrow r hr
  · exact fun r _ => Nat.lt_succ_of_le (Finset.le_sup (f := rank) (Finset.mem_univ r))
  · intro r c hn
    rw [setEntry_apply] at hn
    split at hn
    · next he => exact Or.inr (Or.inl he.2)
    · exact Or.inl hn
  · exact fun r => rowStarred_setEntry
  · exact fun c => colStarred_setEntry
  · exact h.uncovered

/-- At the end of the path the copy is a set of stars again. -/
theorem Flipping.finish {w : Workspace R C K} (hs : Stars w.distMatrix w.starMatrix)
    {row : Fin R} {rank : Fin R → Nat} {newStar : Fin R → Fin C → Bool} {col : Fin C} {b : Nat}
    (h : Flipping w row rank newStar col b) (hend : ∀ r, w.starMatrix r col = false) :
    Flipped w row newStar where
  stars :=
    { nonneg := hs.nonneg
      zero := h.zero
      row := h.rowUniq
      col := fun r r' c hr hr' => by
        by_cases hc : c = col
        · subst hc
          obtain ⟨rn, -, -, honly⟩ := h.fresh
          have hrn : ∀ r, newStar r c = true → r = rn := fun r hr =>
            (honly r hr).resolve_right fun hst => by
              rw [hend r] at hst
              exact Bool.noConfusion hst
          rw [hrn r hr, hrn r' hr']
        · exact h.colUniq r r' c hc hr hr' }
  rows := h.rows
  cols := ⟨col, fun ⟨r, hr⟩ => by rw [hend r] at hr; exact Bool.noConfusion hr, h.cols⟩

/-! ### One turn of the path -/

/-- What a turn does: in the row `starRow` the star moves from the column `col` to `primeCol`. -/
structure Turn (w : Workspace R C K) (row : Fin R) (rank : Fin R → Nat)
    (newStar turned : Fin R → Fin C → Bool) (col : Fin C) (bound : Nat) (starRow : Fin R)
    (primeCol : Fin C) : Prop where
  ne : starRow ≠ row
  zero : w.distMatrix starRow primeCol = 0
  uncovered : w.coveredColumns primeCol = false
  star : w.starMatrix starRow col = true
  free : w.starMatrix starRow primeCol = false
  below : rank starRow < bound
  /-- The stars of the prime's column have a lower rank. -/
  rank_lt : ∀ r, w.starMatrix r primeCol = true → rank r < rank starRow
  same : newStar starRow = w.starMatrix starRow
  new : ∀ c, turned starRow c = true ↔ c = primeCol
  old : ∀ r, r ≠ starRow → turned r = newStar r

theorem Flipping.turn {w : Workspace R C K} (hs : Stars w.distMatrix w.starMatrix)
    {row : Fin R} {col₀ : Fin C} (hp : Path w row col₀) {rank : Fin R → Nat}
    (hrank : ∀ r c r', r ≠ row → w.primeMatrix r c = true → w.starMatrix r' c = true →
      rank r' < rank r)
    {newStar : Fin R → Fin C → Bool} {col : Fin C} {b : Nat}
    (h : Flipping w row rank newStar col b) {starRow : Fin R} {primeCol : Fin C}
    (hstar : w.starMatrix starRow col = true) (hprime : w.primeMatrix starRow primeCol = true) :
    Turn w row rank newStar
      (setEntry (setEntry newStar starRow col false) starRow primeCol true) col b starRow
      primeCol := by
  have hne : starRow ≠ row := fun he => hp.free ⟨col, he ▸ hstar⟩
  obtain ⟨hz, hopen⟩ := hp.prime starRow primeCol hne hprime
  have hlt : rank starRow < b := h.below starRow hstar
  have hsame : newStar starRow = w.starMatrix starRow := h.unvisited starRow hne hlt
  -- a row is not primed where it is starred: ranks would have to drop
  have hpc : w.starMatrix starRow primeCol = false := by
    by_contra hn
    exact lt_irrefl _ (hrank starRow primeCol starRow hne hprime (by simpa using hn))
  refine ⟨hne, hz, hopen, hstar, hpc, hlt, fun r => hrank starRow primeCol r hne hprime, hsame,
    fun c => ?_, fun r hr => ?_⟩
  · rw [setEntry_apply, setEntry_apply]
    by_cases hc : c = primeCol
    · simp [hc]
    · by_cases hc' : c = col
      · simp [hc', hc' ▸ hc]
      · have hnone : newStar starRow c = false := by
          by_contra hn
          rw [hsame] at hn
          exact hc' (hs.row starRow c col (by simpa using hn) hstar)
        simp [hc, hc', hnone]
  · funext c
    rw [setEntry_apply, setEntry_apply, if_neg fun he => hr he.1, if_neg fun he => hr he.1]

namespace Turn

variable {w : Workspace R C K} {row : Fin R} {rank : Fin R → Nat}
  {newStar turned : Fin R → Fin C → Bool} {col : Fin C} {b : Nat} {starRow : Fin R}
  {primeCol : Fin C}

omit [LinearOrder K] in
theorem self (t : Turn w row rank newStar turned col b starRow primeCol) :
    turned starRow primeCol = true :=
  (t.new primeCol).mpr rfl

omit [LinearOrder K] in
theorem primeCol_ne (t : Turn w row rank newStar turned col b starRow primeCol) :
    primeCol ≠ col := by
  rintro rfl
  exact Bool.noConfusion (t.free.symm.trans t.star)

omit [LinearOrder K] in
/-- The prime's column got no star on the way: its own star row is still to come. -/
theorem only (t : Turn w row rank newStar turned col b starRow primeCol)
    (h : Flipping w row rank newStar col b) {r : Fin R} (hn : newStar r primeCol = true) :
    w.starMatrix r primeCol = true := by
  rcases h.moved r primeCol hn with hst | hc | ⟨r', hr', hb⟩
  · exact hst
  · exact absurd hc t.primeCol_ne
  · exact absurd ((t.rank_lt r' hr').trans t.below) (not_lt.mpr hb)

omit [LinearOrder K] in
theorem rowUniq (t : Turn w row rank newStar turned col b starRow primeCol)
    (h : Flipping w row rank newStar col b) (r : Fin R) (c c' : Fin C)
    (hn : turned r c = true) (hn' : turned r c' = true) : c = c' := by
  by_cases hr : r = starRow
  · subst hr
    rw [(t.new c).mp hn, (t.new c').mp hn']
  · rw [t.old r hr] at hn hn'
    exact h.rowUniq r c c' hn hn'

theorem colUniq (t : Turn w row rank newStar turned col b starRow primeCol)
    (hs : Stars w.distMatrix w.starMatrix) (h : Flipping w row rank newStar col b)
    (r r' : Fin R) (c : Fin C) (hc : c ≠ primeCol) (hn : turned r c = true)
    (hn' : turned r' c = true) : r = r' := by
  have hr : r ≠ starRow := fun he => hc ((t.new c).mp (he ▸ hn))
  have hr' : r' ≠ starRow := fun he => hc ((t.new c).mp (he ▸ hn'))
  rw [t.old r hr] at hn
  rw [t.old r' hr'] at hn'
  by_cases hcc : c = col
  · subst hcc
    obtain ⟨rn, -, -, hrn⟩ := h.fresh
    have huniq : ∀ i, i ≠ starRow → newStar i c = true → i = rn := fun i hi hci =>
      (hrn i hci).resolve_right fun hst => hi (hs.col i starRow c hst t.star)
    rw [huniq r hr hn, huniq r' hr' hn']
  · exact h.colUniq r r' c hcc hn hn'

omit [LinearOrder K] in
theorem moved (t : Turn w row rank newStar turned col b starRow primeCol)
    (h : Flipping w row rank newStar col b) (r : Fin R) (c : Fin C) (hn : turned r c = true) :
    w.starMatrix r c = true ∨ c = primeCol ∨
      ∃ r', w.starMatrix r' c = true ∧ rank starRow ≤ rank r' := by
  by_cases hr : r = starRow
  · subst hr
    exact Or.inr (Or.inl ((t.new c).mp hn))
  · rw [t.old r hr] at hn
    rcases h.moved r c hn with hst | hc | ⟨r', hr', hb⟩
    · exact Or.inl hst
    · exact Or.inr (Or.inr ⟨starRow, hc ▸ t.star, le_rfl⟩)
    · exact Or.inr (Or.inr ⟨r', hr', t.below.le.trans hb⟩)

omit [LinearOrder K] in
theorem rowStarred (t : Turn w row rank newStar turned col b starRow primeCol) (r : Fin R) :
    RowStarred turned r ↔ RowStarred newStar r := by
  by_cases hr : r = starRow
  · subst hr
    exact ⟨fun _ => ⟨col, by rw [t.same]; exact t.star⟩, fun _ => ⟨primeCol, t.self⟩⟩
  · exact exists_congr fun c => by rw [t.old r hr]

theorem colStarred (t : Turn w row rank newStar turned col b starRow primeCol)
    (hs : Stars w.distMatrix w.starMatrix) (h : Flipping w row rank newStar col b) (c : Fin C) :
    ColStarred turned c ↔ ColStarred w.starMatrix c ∨ c = primeCol := by
  constructor
  · rintro ⟨r, hn⟩
    by_cases hr : r = starRow
    · subst hr
      exact Or.inr ((t.new c).mp hn)
    · rw [t.old r hr] at hn
      rcases (h.cols c).mp ⟨r, hn⟩ with hc | hc
      · exact Or.inl hc
      · exact Or.inl ⟨starRow, hc ▸ t.star⟩
  · rintro (hc | rfl)
    · by_cases hcc : c = col
      · -- the column left behind keeps its new star
        obtain ⟨rn, hrn, hrn', -⟩ := h.fresh
        have hne : rn ≠ starRow := fun he => by
          rw [he, t.star] at hrn'
          exact Bool.noConfusion hrn'
        exact ⟨rn, by rw [hcc, t.old rn hne]; exact hrn⟩
      · obtain ⟨r, hr⟩ := (h.cols c).mpr (Or.inl hc)
        have hne : r ≠ starRow := fun he => by
          rw [he, t.same] at hr
          exact hcc (hs.row starRow c col hr t.star)
        exact ⟨r, by rw [t.old r hne]; exact hr⟩
    · exact ⟨starRow, t.self⟩

/-- **A turn keeps the path going.** -/
theorem flipping (t : Turn w row rank newStar turned col b starRow primeCol)
    (hs : Stars w.distMatrix w.starMatrix) (h : Flipping w row rank newStar col b) :
    Flipping w row rank turned primeCol (rank starRow) where
  zero r c hn := by
    by_cases hr : r = starRow
    · subst hr
      rw [(t.new c).mp hn]
      exact t.zero
    · rw [t.old r hr] at hn
      exact h.zero r c hn
  rowUniq := t.rowUniq h
  colUniq := t.colUniq hs h
  fresh := by
    refine ⟨starRow, t.self, t.free, fun r hn => ?_⟩
    by_cases hr : r = starRow
    · exact Or.inl hr
    · rw [t.old r hr] at hn
      exact Or.inr (t.only h hn)
  unvisited r hr hb := by
    have hrs : r ≠ starRow := fun he => by
      rw [he] at hb
      exact lt_irrefl _ hb
    rw [t.old r hrs, h.unvisited r hr (hb.trans t.below)]
  below := t.rank_lt
  moved := t.moved h
  rows r := (t.rowStarred r).trans (h.rows r)
  cols := t.colStarred hs h
  uncovered := t.uncovered

end Turn

/-- **The alternating path ends**, as the ranks of its rows drop. -/
theorem flipPath_spec {w : Workspace R C K} (hs : Stars w.distMatrix w.starMatrix)
    {row : Fin R} {col₀ : Fin C} (hp : Path w row col₀) {rank : Fin R → Nat}
    (hrank : ∀ r c r', r ≠ row → w.primeMatrix r c = true → w.starMatrix r' c = true →
      rank r' < rank r) :
    ∀ (fuel : Nat) (newStar : Fin R → Fin C → Bool) (col : Fin C) (b : Nat),
      Flipping w row rank newStar col b →
      (Finset.univ.filter fun r => rank r < b).card < fuel →
      ∃ newStar', flipPath w.starMatrix w.primeMatrix fuel newStar col = some newStar' ∧
        Flipped w row newStar' := by
  intro fuel
  induction fuel with
  | zero => intro _ _ _ _ hf; exact absurd hf (Nat.not_lt_zero _)
  | succ fuel ih =>
    intro newStar col b h hf
    rw [flipPath]
    cases hc : starInCol w.starMatrix col with
    | none => exact ⟨newStar, rfl, h.finish hs (starInCol_none hc)⟩
    | some starRow =>
      have hstar := starInCol_some hc
      cases hr : starInRow w.primeMatrix starRow with
      | none =>
        obtain ⟨c', hc'⟩ := hp.primed starRow col hstar h.uncovered
        rw [starInRow_none hr c'] at hc'
        exact Bool.noConfusion hc'
      | some primeCol =>
        simp only [hr]
        have hturn := h.turn hs hp hrank hstar (starInRow_some hr)
        refine ih _ primeCol (rank starRow) (hturn.flipping hs h) ?_
        have hlt : rank starRow < b := h.below starRow hstar
        have hsub : (Finset.univ.filter fun r => rank r < rank starRow).card
            < (Finset.univ.filter fun r => rank r < b).card := by
          refine Finset.card_lt_card (Finset.ssubset_iff_of_subset ?_ |>.mpr ⟨starRow, ?_, ?_⟩)
          · intro r hr
            simp only [Finset.mem_filter, Finset.mem_univ, true_and] at hr ⊢
            omega
          · simpa using hlt
          · simp
        omega

/-- **Step 4 adds one star and leaves nothing primed and no row covered.** -/
theorem step4_spec {w : Workspace R C K} (hs : Stars w.distMatrix w.starMatrix)
    {row : Fin R} {col : Fin C} (hp : Path w row col) :
    ∃ w', step4 w row col = some w' ∧ w'.distMatrix = w.distMatrix ∧
      w'.coveredColumns = w.coveredColumns ∧ Flipped w row w'.starMatrix ∧
      (∀ r c, w'.primeMatrix r c = false) ∧ ∀ r, w'.coveredRows r = false := by
  obtain ⟨rank, hrank⟩ := hp.rank
  have hcard : (Finset.univ.filter fun r : Fin R => rank r < Finset.univ.sup rank + 1).card
      < R + 1 := by
    refine Nat.lt_succ_of_le ((Finset.card_le_univ _).trans ?_)
    rw [Fintype.card_fin]
  obtain ⟨newStar, hflip, hf⟩ := flipPath_spec hs hp hrank (R + 1) _ col _
    (flipping_start hs hp rank) hcard
  refine ⟨{ w with
      starMatrix := newStar
      primeMatrix := fun _ _ => false
      coveredRows := fun _ => false }, ?_, rfl, rfl, hf, fun _ _ => rfl, fun _ => rfl⟩
  rw [step4, hflip]
  rfl

/-! ## Step 5 -/

variable {dblMax : (Fin R → Fin C → K) → K}

/-- The matrix after step 5, by which of row and column are covered. -/
theorem step5_distMatrix (w : Workspace R C K) (r : Fin R) (c : Fin C) :
    (step5 dblMax w).distMatrix r c = w.distMatrix r c
      + (if w.coveredRows r then smallestUncovered dblMax w else 0)
      - (if w.coveredColumns c then 0 else smallestUncovered dblMax w) := by
  simp only [step5]
  cases w.coveredRows r <;> cases w.coveredColumns c <;> simp

/--
**Step 5.** The matrix stays nonnegative with zeros at stars and primes, the potentials take up
the change, and an uncovered zero appears.
-/
theorem step5_spec [IsOrderedAddMonoid K] {cost : Fin R → Fin C → K} {w : Workspace R C K}
    (hs : Stars w.distMatrix w.starMatrix) (hd : Duals cost w.distMatrix w.starMatrix)
    (hc : Cover w) (hbig : ∀ r c, w.distMatrix r c < dblMax w.distMatrix) {r₀ : Fin R} {c₀ : Fin C}
    (hr₀ : w.coveredRows r₀ = false) (hc₀ : w.coveredColumns c₀ = false) :
    Stars (step5 dblMax w).distMatrix w.starMatrix ∧
      Duals cost (step5 dblMax w).distMatrix w.starMatrix ∧ Cover (step5 dblMax w) ∧
      ∃ r c, w.coveredRows r = false ∧ w.coveredColumns c = false ∧
        (step5 dblMax w).distMatrix r c = 0 := by
  have hlow := smallestUncovered_lowersTo w
  have hle : ∀ r c, w.coveredRows r = false → w.coveredColumns c = false →
      smallestUncovered dblMax w ≤ w.distMatrix r c :=
    fun r c hr hcc => hlow.lower _ _ ⟨r, c, hr, hcc, rfl⟩
  obtain ⟨r₁, c₁, hr₁, hc₁, hmin⟩ : smallestUncovered dblMax w ∈ uncoveredValues w :=
    hlow.attained_of_lt ⟨r₀, c₀, hr₀, hc₀, rfl⟩ (hbig r₀ c₀)
  have hnn : 0 ≤ smallestUncovered dblMax w := hmin ▸ hs.nonneg r₁ c₁
  have hdist : ∀ r c, (step5 dblMax w).distMatrix r c = _ := step5_distMatrix w
  -- an element changes only where its row and its column are both covered or both not
  have hkeep : ∀ r c, w.coveredRows r = !w.coveredColumns c →
      (step5 dblMax w).distMatrix r c = w.distMatrix r c := by
    intro r c he
    rw [hdist, he]
    cases w.coveredColumns c <;> simp
  -- the cover passes through each star once
  have hstar : ∀ r c, w.starMatrix r c = true → w.coveredRows r = !w.coveredColumns c := by
    intro r c hst
    have hcol := hc.col c
    cases hcr : w.coveredRows r with
    | false => rw [hcol.mpr ⟨r, hst, hcr⟩]; rfl
    | true =>
      cases hcc : w.coveredColumns c with
      | false => rfl
      | true =>
        obtain ⟨r', hst', hu⟩ := hcol.mp hcc
        rw [hs.col r' r c hst' hst, hcr] at hu
        exact Bool.noConfusion hu
  refine ⟨⟨?_, ?_, hs.row, hs.col⟩, ?_, ⟨hc.col, hc.row, hc.primed, ?_, hc.rank⟩, ?_⟩
  · intro r c
    rw [hdist]
    cases hcr : w.coveredRows r <;> cases hcc : w.coveredColumns c
    · simpa using hle r c hcr hcc
    · simpa using hs.nonneg r c
    · simpa using hs.nonneg r c
    · simpa using add_nonneg (hs.nonneg r c) hnn
  · intro r c hst
    rw [hkeep r c (hstar r c hst)]
    exact hs.zero r c hst
  · obtain ⟨u, v, hdual, hu, hv⟩ := hd
    refine ⟨fun r => u r - (if w.coveredRows r then smallestUncovered dblMax w else 0),
      fun c => v c + (if w.coveredColumns c then 0 else smallestUncovered dblMax w),
      fun r c => ?_, fun hlt r hfree r' => ?_, fun hCR c hfree c' => ?_⟩
    · have hmove : ∀ x y z a b : K, x + y + z = x - a + (y + b) + (z + a - b) := by
        intro x y z a b
        abel
      rw [hdist, hdual r c]
      exact hmove _ _ _ _ _
    · have hcr : w.coveredRows r = false := by
        by_contra hn
        exact hfree (hc.row r (by simpa using hn))
      simp only [hcr, Bool.false_eq_true, if_false, sub_zero]
      refine (sub_le_self _ ?_).trans (hu hlt r hfree r')
      split <;> simp [hnn]
    · have hcc : w.coveredColumns c = false := by
        by_contra hn
        exact hfree (hc.colStarred (by simpa using hn))
      simp only [hcc, Bool.false_eq_true, if_false]
      refine add_le_add (hv hCR c hfree c') ?_
      split <;> simp [hnn]
  · intro r c hp
    obtain ⟨hz, hcc, hcr⟩ := hc.prime r c hp
    refine ⟨?_, hcc, hcr⟩
    rw [hkeep r c (by rw [hcr, hcc]; rfl)]
    exact hz
  · refine ⟨r₁, c₁, hr₁, hc₁, ?_⟩
    rw [hdist, hr₁, hc₁, hmin]
    simp

end CambriconGst.Hungarian
