import CambriconGst.Cxxutil.LogFilter
import Mathlib.Data.Nat.Basic
import Mathlib.Order.Basic

/-!
# The log filter

* `filterLoop_eq`: with the colons in the first pieces, the pieces are read one by one
* `exists_comma_of_merged`: a piece without a colon is read as part of the next name
* `log_filter_iff`: which strings are read piece by piece
-/

namespace CambriconGst.Cxxutil

/-! ## The pieces of a string -/

/-- What the string is split into at the commas, without spaces. -/
def pieces (logFilter : Bytes) : List Bytes :=
  (logFilter.filter (· ≠ space)).splitOn comma

/-- The parts of a piece before and behind its first colon. -/
def nameAndLevel (piece : Bytes) : Option (Bytes × Bytes) :=
  if colon ∈ piece then
    some (piece.takeWhile (· ≠ colon), (piece.dropWhile (· ≠ colon)).tail)
  else none

/-- What a piece contributes. -/
def readPiece (minLogLevel : Int) (piece : Bytes) : Option (Bytes × Int) :=
  (nameAndLevel piece).map fun e => (e.1.map toupper, (scanInt e.2).getD minLogLevel)

/-- What the pieces contribute, of which the first for a name counts. -/
def readPieces (minLogLevel : Int) (logFilter : Bytes) : List (Bytes × Int) :=
  (pieces logFilter).filterMap (readPiece minLogLevel)

/-- The map has the levels that the pieces contribute. A null pointer has none. -/
def ReadByPieces (minLogLevel : Int) (logFilter : Bytes) : Prop :=
  ∃ maps, createFilterMaps minLogLevel logFilter = some maps ∧
    ∀ name, (maps.getD []).lookup name = (readPieces minLogLevel logFilter).lookup name

/-- No piece without a colon is before one with a colon. -/
def ColonsFirst (ps : List Bytes) : Prop :=
  ps.Pairwise fun p q => colon ∈ q → colon ∈ p

/-- Every level fits in an `int`. -/
def LevelsFit (ps : List Bytes) : Prop :=
  ∀ p ∈ ps, ∀ e, nameAndLevel p = some e → ∀ n, scanInt e.2 = some n → IntFits n

variable {minLogLevel : Int} {s p name level : Bytes} {ps : List Bytes} {maps : CategoryFilterMaps}

/-! ## Searching -/

theorem strchr_append {c : UInt8} (h : c ∉ p) : strchr c (p ++ s) = strchr c s := by
  induction p with
  | nil => rfl
  | cons x xs ih =>
    rw [List.mem_cons, not_or] at h
    rw [List.cons_append, strchr, if_neg (Ne.symm h.1), ih h.2]

theorem strchr_of_notMem {c : UInt8} (h : c ∉ s) : strchr c s = none := by
  have happ := strchr_append (s := []) h
  rwa [List.append_nil] at happ

theorem strchr_self (c : UInt8) (s : Bytes) : strchr c (c :: s) = some (c :: s) :=
  if_pos rfl

theorem stringTrim_eq (s : Bytes) : stringTrim s = s.filter (· ≠ space) := by
  induction s with
  | nil => rfl
  | cons c cs ih =>
    rw [stringTrim, ih]
    by_cases h : c = space
    · simp [h]
    · simp [h]

/-- A string without commas is one piece, any other goes on behind its first piece. -/
theorem splitOn_comma (s : Bytes) : (comma ∉ s ∧ s.splitOn comma = [s]) ∨
    ∃ p t, comma ∉ p ∧ s = p ++ comma :: t ∧ s.splitOn comma = p :: t.splitOn comma := by
  by_cases h : comma ∈ s
  · obtain ⟨p, t, rfl, hp⟩ := List.eq_append_cons_of_mem h
    exact .inr ⟨p, t, hp, rfl, List.splitOn_append_cons_self_of_not_mem hp t⟩
  · exact .inl ⟨h, List.splitOn_eq_singleton h⟩

theorem nameAndLevel_append (h : colon ∉ name) :
    nameAndLevel (name ++ colon :: level) = some (name, level) := by
  have hall : ∀ x ∈ name, (decide (x ≠ colon)) = true := fun x hx =>
    decide_eq_true fun he => h (he ▸ hx)
  rw [nameAndLevel, if_pos (by simp), List.takeWhile_append_of_pos hall,
    List.dropWhile_append_of_pos hall]
  simp

theorem nameAndLevel_of_notMem (h : colon ∉ p) : nameAndLevel p = none :=
  if_neg h

/-! ## The level -/

/-- The level ends at a comma. -/
theorem scanInt_append (s t : Bytes) : scanInt (s ++ comma :: t) = scanInt s := by
  have hspace : (s ++ comma :: t).dropWhile isSpace = s.dropWhile isSpace ++ comma :: t := by
    induction s with
    | nil => rfl
    | cons c cs ih =>
      rw [List.cons_append, List.dropWhile_cons, List.dropWhile_cons]
      split
      · exact ih
      · rfl
  have hdigits : ∀ s : Bytes, (s ++ comma :: t).takeWhile isDigit = s.takeWhile isDigit := by
    intro s
    induction s with
    | nil => rfl
    | cons c cs ih =>
      rw [List.cons_append, List.takeWhile_cons, List.takeWhile_cons, ih]
  have hsign : ∀ s : Bytes, ((scanSign (s ++ comma :: t)).1,
      (scanSign (s ++ comma :: t)).2.takeWhile isDigit)
        = ((scanSign s).1, (scanSign s).2.takeWhile isDigit) := by
    intro s
    cases s with
    | nil => rfl
    | cons c cs =>
      simp only [List.cons_append, scanSign]
      split
      · rw [hdigits]
      · split
        · rw [hdigits]
        · rw [← List.cons_append, hdigits]
  obtain ⟨hneg, htake⟩ := Prod.mk.inj (hsign (s.dropWhile isSpace))
  unfold scanInt
  rw [hspace]
  simp only [hneg, htake]

theorem categoryLevel_append (s t : Bytes) :
    categoryLevel minLogLevel (s ++ comma :: t) = categoryLevel minLogLevel s := by
  rw [categoryLevel, categoryLevel, scanInt_append]

theorem categoryLevel_of_fits (h : ∀ n, scanInt s = some n → IntFits n) :
    categoryLevel minLogLevel s = some ((scanInt s).getD minLogLevel) := by
  unfold categoryLevel
  cases hs : scanInt s with
  | none => rfl
  | some n => exact if_pos (h n hs)

theorem categoryLevel_of_not_fits (h : ¬∀ n, scanInt s = some n → IntFits n) :
    categoryLevel minLogLevel s = none := by
  unfold categoryLevel
  cases hs : scanInt s with
  | none => exact absurd (fun n hn => by rw [hs] at hn; cases hn) h
  | some n =>
    refine if_neg fun hn => h fun m hm => ?_
    obtain rfl := Option.some.inj (hs.symm.trans hm)
    exact hn

/-! ## One round of the loop -/

theorem take_length_sub (p s : Bytes) : (p ++ s).take ((p ++ s).length - s.length) = p := by
  rw [List.length_append, Nat.add_sub_cancel, List.take_left]

theorem filterLoop_of_notMem (h : colon ∉ s) (maps : CategoryFilterMaps) :
    filterLoop minLogLevel s maps = some maps := by
  unfold filterLoop
  rw [strchr_of_notMem h]

/-- The last entry, whose level goes to the end. -/
theorem filterLoop_last (hname : colon ∉ name) (hlevel : comma ∉ level)
    (maps : CategoryFilterMaps) :
    filterLoop minLogLevel (name ++ colon :: level) maps
      = (categoryLevel minLogLevel level).map (maps.insert (name.map toupper)) := by
  have hcomma : comma ∉ colon :: level := by
    rw [List.mem_cons, not_or]
    exact ⟨by decide, hlevel⟩
  unfold filterLoop
  rw [strchr_append hname, strchr_self]
  simp only [take_length_sub, List.tail_cons]
  cases categoryLevel minLogLevel level with
  | none => rfl
  | some l =>
    dsimp only
    rw [strchr_of_notMem hcomma, Option.map_some]

/-- An entry that ends at a comma. -/
theorem filterLoop_entry (hname : colon ∉ name) (hlevel : comma ∉ level) (t : Bytes)
    (maps : CategoryFilterMaps) :
    filterLoop minLogLevel (name ++ colon :: (level ++ comma :: t)) maps
      = (categoryLevel minLogLevel level).bind fun l =>
          filterLoop minLogLevel t (maps.insert (name.map toupper) l) := by
  have hcomma : comma ∉ colon :: level := by
    rw [List.mem_cons, not_or]
    exact ⟨by decide, hlevel⟩
  have hnext : strchr comma (colon :: (level ++ comma :: t)) = some (comma :: t) := by
    rw [← List.cons_append, strchr_append hcomma, strchr_self]
  rw [filterLoop]
  rw [strchr_append hname, strchr_self]
  simp only [take_length_sub, List.tail_cons, categoryLevel_append]
  cases categoryLevel minLogLevel level with
  | none => rfl
  | some l =>
    dsimp only
    rw [hnext, Option.bind_some]
    rfl

/-- The string around its first colon and the first comma behind it. -/
theorem colon_cases (s : Bytes) : colon ∉ s ∨
    (∃ name level, colon ∉ name ∧ comma ∉ level ∧ s = name ++ colon :: level) ∨
    ∃ name level t, colon ∉ name ∧ comma ∉ level ∧ s = name ++ colon :: (level ++ comma :: t) := by
  by_cases h : colon ∈ s
  · obtain ⟨name, rest, rfl, hname⟩ := List.eq_append_cons_of_mem h
    obtain ⟨hrest, -⟩ | ⟨level, t, hlevel, rfl, -⟩ := splitOn_comma rest
    · exact .inr (.inl ⟨name, rest, hname, hrest, rfl⟩)
    · exact .inr (.inr ⟨name, level, t, hname, hlevel, rfl⟩)
  · exact .inl h

/-! ## The map -/

theorem lookup_insert_append (maps rest : CategoryFilterMaps) (pattern : Bytes) (l : Int)
    (name : Bytes) : (maps.insert pattern l ++ rest).lookup name
      = (maps ++ (pattern, l) :: rest).lookup name := by
  unfold CategoryFilterMaps.insert
  split
  case isFalse => rw [List.append_assoc]; rfl
  case isTrue h =>
    rw [List.lookup_append, List.lookup_append]
    by_cases hname : name = pattern
    · obtain ⟨v, hv⟩ := Option.isSome_iff_exists.mp h
      rw [hname, hv, Option.some_or, Option.some_or]
    · rw [List.lookup_cons, beq_false_of_ne hname]

theorem lookup_insert_of_some {n : Bytes} {v : Int} (h : maps.lookup n = some v) (pattern : Bytes)
    (l : Int) : (maps.insert pattern l).lookup n = some v := by
  have happ := lookup_insert_append maps [] pattern l n
  rwa [List.append_nil, List.lookup_append, h, Option.some_or] at happ

theorem lookup_insert_self (maps : CategoryFilterMaps) (pattern : Bytes) (l : Int) :
    ∃ v, (maps.insert pattern l).lookup pattern = some v := by
  have happ := lookup_insert_append maps [] pattern l pattern
  rw [List.append_nil, List.lookup_append, List.lookup_cons_self] at happ
  cases h : maps.lookup pattern with
  | none => exact ⟨l, by rw [happ, h, Option.none_or]⟩
  | some v => exact ⟨v, by rw [happ, h, Option.some_or]⟩

/-- A level that is in the map stays. -/
theorem filterLoop_lookup {n : Bytes} {v : Int} {maps' : CategoryFilterMaps} (s : Bytes)
    (maps : CategoryFilterMaps) (hloop : filterLoop minLogLevel s maps = some maps')
    (hn : maps.lookup n = some v) : maps'.lookup n = some v := by
  obtain h | ⟨name, level, hname, hlevel, rfl⟩ | ⟨name, level, t, hname, hlevel, rfl⟩ :=
    colon_cases s
  · rw [filterLoop_of_notMem h] at hloop
    exact Option.some.inj hloop ▸ hn
  · rw [filterLoop_last hname hlevel, Option.map_eq_some_iff] at hloop
    obtain ⟨l, -, rfl⟩ := hloop
    exact lookup_insert_of_some hn _ l
  · rw [filterLoop_entry hname hlevel, Option.bind_eq_some_iff] at hloop
    obtain ⟨l, -, hrest⟩ := hloop
    exact filterLoop_lookup t _ hrest (lookup_insert_of_some hn _ l)
termination_by s.length
decreasing_by
  subst s
  rw [List.length_append, List.length_cons, List.length_append, List.length_cons]
  omega

/-! ## The colons in the first pieces -/

theorem colonsFirst_cons : ColonsFirst (p :: ps) ↔
    (∀ q ∈ ps, colon ∈ q → colon ∈ p) ∧ ColonsFirst ps :=
  List.pairwise_cons

theorem readPiece_append (hname : colon ∉ name) :
    readPiece minLogLevel (name ++ colon :: level)
      = some (name.map toupper, (scanInt level).getD minLogLevel) := by
  rw [readPiece, nameAndLevel_append hname, Option.map_some]

theorem readPiece_of_notMem (h : colon ∉ p) : readPiece minLogLevel p = none := by
  rw [readPiece, nameAndLevel_of_notMem h, Option.map_none]

theorem levelsFit_cons (hname : colon ∉ name) : LevelsFit ((name ++ colon :: level) :: ps) ↔
    (∀ n, scanInt level = some n → IntFits n) ∧ LevelsFit ps := by
  rw [LevelsFit, List.forall_mem_cons, nameAndLevel_append hname]
  simp only [Option.some.injEq, forall_eq']
  exact Iff.rfl

theorem comma_notMem_of_mem_splitOn (s : Bytes) : ∀ q ∈ s.splitOn comma, comma ∉ q := by
  obtain ⟨hcomma, hs⟩ | ⟨p, t, hcomma, rfl, hs⟩ := splitOn_comma s
  · rw [hs, List.forall_mem_singleton]
    exact hcomma
  · rw [hs, List.forall_mem_cons]
    exact ⟨hcomma, comma_notMem_of_mem_splitOn t⟩
termination_by s.length
decreasing_by
  subst s
  rw [List.length_append, List.length_cons]
  omega

theorem mem_iff_exists_splitOn {x : UInt8} (hx : x ≠ comma) (s : Bytes) :
    x ∈ s ↔ ∃ q ∈ s.splitOn comma, x ∈ q := by
  obtain ⟨-, hs⟩ | ⟨p, t, -, rfl, hs⟩ := splitOn_comma s
  · rw [hs]
    simp only [List.mem_singleton, exists_eq_left]
  · rw [hs, List.mem_append, List.mem_cons, mem_iff_exists_splitOn hx t, List.exists_mem_cons_iff]
    simp only [hx, false_or]
termination_by s.length
decreasing_by
  subst s
  rw [List.length_append, List.length_cons]
  omega

theorem filterMap_readPiece_eq_nil (h : colon ∉ s) :
    (s.splitOn comma).filterMap (readPiece minLogLevel) = [] := by
  rw [List.filterMap_eq_nil_iff]
  intro q hq
  exact readPiece_of_notMem fun hc => h ((mem_iff_exists_splitOn (by decide) s).mpr ⟨q, hq, hc⟩)

/-- With the colons in the first pieces the loop contributes what the pieces contribute. -/
theorem filterLoop_eq (s : Bytes) (maps : CategoryFilterMaps)
    (hfirst : ColonsFirst (s.splitOn comma)) (hfit : LevelsFit (s.splitOn comma)) :
    ∃ maps', filterLoop minLogLevel s maps = some maps' ∧ ∀ n, maps'.lookup n
      = (maps ++ (s.splitOn comma).filterMap (readPiece minLogLevel)).lookup n := by
  by_cases hcolon : colon ∈ s
  case neg =>
    refine ⟨maps, filterLoop_of_notMem hcolon maps, fun n => ?_⟩
    rw [filterMap_readPiece_eq_nil hcolon, List.append_nil]
  obtain ⟨hcomma, hs⟩ | ⟨p, t, hcomma, rfl, hs⟩ := splitOn_comma s
  · obtain ⟨name, level, rfl, hname⟩ := List.eq_append_cons_of_mem hcolon
    rw [hs, levelsFit_cons hname] at hfit
    rw [hs, filterLoop_last hname (fun h => hcomma (by simp [h])), categoryLevel_of_fits hfit.1]
    refine ⟨_, rfl, fun n => ?_⟩
    rw [List.filterMap_cons_some (readPiece_append hname), List.filterMap_nil,
      ← lookup_insert_append, List.append_nil]
  · rw [hs, colonsFirst_cons] at hfirst
    have hp : colon ∈ p := by
      rw [List.mem_append, List.mem_cons, mem_iff_exists_splitOn (by decide) t] at hcolon
      obtain h | h | ⟨q, hq, h⟩ := hcolon
      · exact h
      · exact absurd h (by decide)
      · exact hfirst.1 q hq h
    obtain ⟨name, level, rfl, hname⟩ := List.eq_append_cons_of_mem hp
    rw [hs, levelsFit_cons hname] at hfit
    obtain ⟨maps', hloop, hlookup⟩ := filterLoop_eq t
      (maps.insert (name.map toupper) ((scanInt level).getD minLogLevel)) hfirst.2 hfit.2
    refine ⟨maps', ?_, fun n => ?_⟩
    · rw [List.append_assoc, List.cons_append,
        filterLoop_entry hname (fun h => hcomma (by simp [h])), categoryLevel_of_fits hfit.1,
        Option.bind_some, hloop]
    · rw [hlookup, hs, List.filterMap_cons_some (readPiece_append hname), lookup_insert_append]
termination_by s.length
decreasing_by
  subst s
  rw [List.length_append, List.length_cons]
  omega

/-- A level that does not fit in an `int` makes the loop undefined. -/
theorem filterLoop_of_not_fits (s : Bytes) (maps : CategoryFilterMaps)
    (hfirst : ColonsFirst (s.splitOn comma)) (hfit : ¬LevelsFit (s.splitOn comma)) :
    filterLoop minLogLevel s maps = none := by
  obtain ⟨hcomma, hs⟩ | ⟨p, t, hcomma, rfl, hs⟩ := splitOn_comma s
  · by_cases hcolon : colon ∈ s
    · obtain ⟨name, level, rfl, hname⟩ := List.eq_append_cons_of_mem hcolon
      rw [hs, levelsFit_cons hname] at hfit
      have hlevel : ¬∀ n, scanInt level = some n → IntFits n := fun h =>
        hfit ⟨h, fun q hq => absurd hq List.not_mem_nil⟩
      rw [filterLoop_last hname (fun h => hcomma (by simp [h])),
        categoryLevel_of_not_fits hlevel, Option.map_none]
    · refine absurd (fun q hq e he => ?_) hfit
      rw [hs, List.mem_singleton] at hq
      rw [hq, nameAndLevel_of_notMem hcolon] at he
      cases he
  · rw [hs, colonsFirst_cons] at hfirst
    rw [hs] at hfit
    by_cases hp : colon ∈ p
    · obtain ⟨name, level, rfl, hname⟩ := List.eq_append_cons_of_mem hp
      rw [levelsFit_cons hname, not_and_or] at hfit
      rw [List.append_assoc, List.cons_append,
        filterLoop_entry hname (fun h => hcomma (by simp [h]))]
      obtain hlevel | hrest := hfit
      · rw [categoryLevel_of_not_fits hlevel, Option.bind_none]
      · cases categoryLevel minLogLevel level with
        | none => rfl
        | some l => exact filterLoop_of_not_fits t _ hfirst.2 hrest
    · refine absurd (fun q hq e he => ?_) hfit
      have hq' : colon ∉ q := by
        obtain rfl | hq := List.mem_cons.mp hq
        · exact hp
        · exact fun h => hp (hfirst.1 q hq h)
      rw [nameAndLevel_of_notMem hq'] at he
      cases he
termination_by s.length
decreasing_by
  subst s
  rw [List.length_append, List.length_cons]
  omega

/-! ## A piece without a colon in between -/

theorem toupper_eq_comma (c : UInt8) : toupper c = comma ↔ c = comma := by
  unfold toupper comma
  split
  case isFalse => rfl
  case isTrue h =>
    simp only [UInt8.le_iff_toNat_le, UInt8.ext_iff, UInt8.toNat_sub] at *
    simp at *
    omega

theorem comma_mem_toupper (name : Bytes) : comma ∈ name.map toupper ↔ comma ∈ name := by
  simp only [List.mem_map, toupper_eq_comma, exists_eq_right]

/-- The name that a piece without a colon is part of has the comma that ends the piece. -/
theorem exists_comma_of_merged (s : Bytes) (maps : CategoryFilterMaps)
    (hfirst : ¬ColonsFirst (s.splitOn comma)) {maps' : CategoryFilterMaps}
    (hloop : filterLoop minLogLevel s maps = some maps') :
    ∃ n v, comma ∈ n ∧ maps'.lookup n = some v := by
  obtain ⟨-, hs⟩ | ⟨p, t, hcomma, rfl, hs⟩ := splitOn_comma s
  · rw [hs] at hfirst
    exact absurd (List.pairwise_singleton ..) hfirst
  rw [hs, colonsFirst_cons, not_and_or] at hfirst
  by_cases hp : colon ∈ p
  · have hrest := hfirst.resolve_left fun h => h fun _ _ _ => hp
    obtain ⟨name, level, rfl, hname⟩ := List.eq_append_cons_of_mem hp
    rw [List.append_assoc, List.cons_append,
      filterLoop_entry hname (fun h => hcomma (by simp [h])), Option.bind_eq_some_iff] at hloop
    obtain ⟨l, -, hloop⟩ := hloop
    exact exists_comma_of_merged t _ hrest hloop
  · have ht : colon ∈ t := by
      by_contra h
      have hnone : ∀ q ∈ t.splitOn comma, colon ∉ q := fun q hq hc =>
        h ((mem_iff_exists_splitOn (by decide) t).mpr ⟨q, hq, hc⟩)
      obtain hnot | hnot := hfirst
      · exact hnot fun q hq hc => absurd hc (hnone q hq)
      · exact hnot (List.pairwise_of_forall_mem_list fun _ _ q hq hc => absurd hc (hnone q hq))
    obtain ⟨name, rest, rfl, hname⟩ := List.eq_append_cons_of_mem ht
    -- the name goes from before the comma up to the colon
    have hname' : colon ∉ p ++ comma :: name := by
      rw [List.mem_append, List.mem_cons, not_or, not_or]
      exact ⟨hp, by decide, hname⟩
    have hmem : comma ∈ (p ++ comma :: name).map toupper := by
      rw [comma_mem_toupper]
      exact List.mem_append_right p List.mem_cons_self
    rw [← List.cons_append, ← List.append_assoc] at hloop
    obtain ⟨hrest, -⟩ | ⟨level, u, hlevel, rfl, -⟩ := splitOn_comma rest
    · rw [filterLoop_last hname' hrest, Option.map_eq_some_iff] at hloop
      obtain ⟨l, -, rfl⟩ := hloop
      obtain ⟨v, hv⟩ := lookup_insert_self maps ((p ++ comma :: name).map toupper) l
      exact ⟨_, v, hmem, hv⟩
    · rw [filterLoop_entry hname' hlevel, Option.bind_eq_some_iff] at hloop
      obtain ⟨l, -, hloop⟩ := hloop
      obtain ⟨v, hv⟩ := lookup_insert_self maps ((p ++ comma :: name).map toupper) l
      exact ⟨_, v, hmem, filterLoop_lookup u _ hloop hv⟩
termination_by s.length
decreasing_by
  subst s
  rw [List.length_append, List.length_cons]
  omega

/-- No piece has a name with a comma. -/
theorem readPieces_lookup_comma (logFilter : Bytes) {n : Bytes} (hn : comma ∈ n) :
    (readPieces minLogLevel logFilter).lookup n = none := by
  rw [List.lookup_eq_none_iff]
  rintro ⟨m, l⟩ hm
  obtain ⟨p, hp, hread⟩ := List.mem_filterMap.mp hm
  rw [bne_iff_ne]
  rintro rfl
  by_cases hcolon : colon ∈ p
  · obtain ⟨name, level, rfl, hname⟩ := List.eq_append_cons_of_mem hcolon
    rw [readPiece_append hname, Option.some.injEq, Prod.mk.injEq] at hread
    rw [← hread.1, comma_mem_toupper] at hn
    exact comma_notMem_of_mem_splitOn _ _ hp (List.mem_append_left _ hn)
  · rw [readPiece_of_notMem hcolon] at hread
    cases hread

theorem readByPieces_nil (h : stringTrim s = []) : ReadByPieces minLogLevel s := by
  refine ⟨none, by rw [createFilterMaps, h]; rfl, fun n => ?_⟩
  rw [readPieces, pieces, ← stringTrim_eq, h, filterMap_readPiece_eq_nil List.not_mem_nil]
  rfl

theorem createFilterMaps_of_ne_nil (h : stringTrim s ≠ []) :
    createFilterMaps minLogLevel s = (filterLoop minLogLevel (stringTrim s) []).map some :=
  if_neg fun he => h (List.isEmpty_iff.mp he)

/-- The string is read piece by piece exactly when no piece without a colon is before one with a
colon and all levels are of type `int`. -/
theorem log_filter_iff (minLogLevel : Int) (logFilter : Bytes) :
    ReadByPieces minLogLevel logFilter ↔
      ColonsFirst (pieces logFilter) ∧ LevelsFit (pieces logFilter) := by
  have hpieces : pieces logFilter = (stringTrim logFilter).splitOn comma := by
    rw [pieces, stringTrim_eq]
  by_cases hempty : stringTrim logFilter = []
  · refine iff_of_true (readByPieces_nil hempty) ?_
    rw [hpieces, hempty]
    refine ⟨List.pairwise_singleton .., fun p hp e he => ?_⟩
    rw [List.splitOn_nil, List.mem_singleton] at hp
    rw [hp, nameAndLevel_of_notMem List.not_mem_nil] at he
    cases he
  rw [ReadByPieces, createFilterMaps_of_ne_nil hempty, hpieces]
  constructor
  · rintro ⟨maps, hmaps, hlookup⟩
    obtain ⟨maps', hloop, rfl⟩ := Option.map_eq_some_iff.mp hmaps
    have hfirst : ColonsFirst ((stringTrim logFilter).splitOn comma) := by
      by_contra hfirst
      obtain ⟨n, v, hn, hv⟩ := exists_comma_of_merged _ _ hfirst hloop
      have hnone := hlookup n
      rw [readPieces_lookup_comma logFilter hn, Option.getD_some, hv] at hnone
      cases hnone
    refine ⟨hfirst, ?_⟩
    by_contra hfit
    rw [filterLoop_of_not_fits _ _ hfirst hfit] at hloop
    cases hloop
  · rintro ⟨hfirst, hfit⟩
    obtain ⟨maps', hloop, hlookup⟩ := @filterLoop_eq minLogLevel _ [] hfirst hfit
    refine ⟨some maps', by rw [hloop, Option.map_some], fun n => ?_⟩
    rw [Option.getD_some, hlookup, List.nil_append, readPieces, hpieces]

/-- In `A,B:2` the piece `A` becomes part of the name. -/
theorem colonless_piece_merged : ¬ReadByPieces 2 [0x41, comma, 0x42, colon, 0x32] := by
  rintro ⟨maps, hmaps, hlookup⟩
  have hname : colon ∉ ([0x41, comma, 0x42] : Bytes) := by decide
  have hlevel : comma ∉ ([0x32] : Bytes) := by decide
  have hloop : createFilterMaps 2 [0x41, comma, 0x42, colon, 0x32]
      = some (some [([0x41, comma, 0x42], 2)]) :=
    (createFilterMaps_of_ne_nil (by decide)).trans
      (congrArg (Option.map some) (filterLoop_last hname hlevel []))
  rw [hloop] at hmaps
  obtain rfl := Option.some.inj hmaps
  have hnone := hlookup [0x42]
  revert hnone
  decide

end CambriconGst.Cxxutil
