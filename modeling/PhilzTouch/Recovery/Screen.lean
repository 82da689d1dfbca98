import Mathlib.Logic.Function.Iterate
import PhilzTouch.Lib.CText
import PhilzTouch.Lib.Memory

/-!
# The screen

The text on the screen is a ring of rows that `ui_print` writes into, and of a long menu a window
of its items is shown.  A few variables of `ui.c` say where the next character goes and which items
are in the window.
-/

namespace PhilzTouch.Recovery

/-! ## Text -/

/-- What `ui_init` makes of the display: the rows and columns of `text[32][96]` that are used. -/
structure Screen where
  textRows : Int
  textCols : Int
  rows : 1 ≤ textRows ∧ textRows ≤ 32
  cols : 1 ≤ textCols ∧ textCols ≤ 95

/-- The cursors, and the cells of `text` that have been written. -/
structure TextRing where
  textRow : Int
  textTop : Int
  textCol : Int
  written : List (Int × Int)
  deriving DecidableEq, Repr

/-- The cursors that `ui_init` leaves. -/
def uiInit : TextRing := ⟨0, 1, 0, []⟩

/-- One round of the loop over `ui_print_replace_lines`. -/
def replaceLine (screen : Screen) (ring : TextRing) : TextRing :=
  { ring with
    textRow := (ring.textRow - 1 + screen.textRows).tmod screen.textRows
    textCol := 0
    written := (ring.textRow, 0) :: ring.written }

def endRow (screen : Screen) (ring : TextRing) : TextRing :=
  let textRow := (ring.textRow + 1).tmod screen.textRows
  { textRow := textRow
    textTop :=
      if textRow = ring.textTop then (ring.textTop + 1).tmod screen.textRows else ring.textTop
    textCol := 0
    written := (ring.textRow, ring.textCol) :: ring.written }

def putChar (screen : Screen) (ring : TextRing) (char : UInt8) : TextRing :=
  let ring := if char = newline ∨ screen.textCols ≤ ring.textCol then endRow screen ring else ring
  if char = newline then ring
  else
    { ring with
      textCol := ring.textCol + 1
      written := (ring.textRow, ring.textCol) :: ring.written }

/-- `ui_print`; there is room for 255 characters in `buf`. -/
def uiPrint (screen : Screen) (ring : TextRing) (replaceLines : Int) (text : Bytes) : TextRing :=
  let replaced := (replaceLine screen)^[replaceLines.toNat] ring
  let ring := (cString (text.take 255)).foldl (putChar screen) replaced
  { ring with written := (ring.textRow, ring.textCol) :: ring.written }

/-- The cursors are on the screen, and no write was outside `text`. -/
structure OnScreen (screen : Screen) (ring : TextRing) : Prop where
  row : 0 ≤ ring.textRow ∧ ring.textRow < screen.textRows
  top : 0 ≤ ring.textTop ∧ ring.textTop < screen.textRows
  col : 0 ≤ ring.textCol ∧ ring.textCol ≤ screen.textCols
  cells : ∀ cell ∈ ring.written, (0 ≤ cell.1 ∧ cell.1 < 32) ∧ 0 ≤ cell.2 ∧ cell.2 < 96

section Ring

variable {screen : Screen} {ring : TextRing}

theorem Screen.tmod_rows (screen : Screen) {row : Int} (inside : 0 ≤ row) :
    0 ≤ row.tmod screen.textRows ∧ row.tmod screen.textRows < screen.textRows :=
  ⟨Int.tmod_nonneg _ inside, Int.tmod_lt_of_pos row screen.rows.1⟩

section

variable (inside : OnScreen screen ring)

include inside

theorem OnScreen.write {col : Int}
    (upto : 0 ≤ col ∧ col ≤ ring.textCol) : ∀ cell ∈ (ring.textRow, col) :: ring.written,
      (0 ≤ cell.1 ∧ cell.1 < 32) ∧ 0 ≤ cell.2 ∧ cell.2 < 96 := by
  have row := inside.row
  have rows := screen.rows
  have last := inside.col
  have cols := screen.cols
  exact List.forall_mem_cons.mpr ⟨⟨by omega, by omega⟩, inside.cells⟩

theorem OnScreen.replaceLine : OnScreen screen (replaceLine screen ring) := by
  have row := inside.row
  have cols := screen.cols
  exact ⟨screen.tmod_rows (by omega), inside.top, ⟨Int.le_refl 0, by change 0 ≤ _; omega⟩,
    inside.write ⟨Int.le_refl 0, inside.col.1⟩⟩

theorem OnScreen.endRow : OnScreen screen (endRow screen ring) := by
  have row := inside.row
  have top := inside.top
  have cols := screen.cols
  refine ⟨screen.tmod_rows (by omega), ?_, ⟨Int.le_refl 0, by change 0 ≤ _; omega⟩,
    inside.write ⟨inside.col.1, Int.le_refl _⟩⟩
  rw [Recovery.endRow]
  split
  · exact screen.tmod_rows (by omega)
  · exact top

/-- A character is stored where there is still a column for it. -/
theorem OnScreen.advance (space : ring.textCol < screen.textCols) : OnScreen screen { ring with
      textCol := ring.textCol + 1
      written := (ring.textRow, ring.textCol) :: ring.written } :=
  ⟨inside.row, inside.top, ⟨Int.le_add_one inside.col.1, space⟩,
    inside.write ⟨inside.col.1, Int.le_refl _⟩⟩

theorem OnScreen.putChar (char : UInt8) : OnScreen screen (putChar screen ring char) := by
  rw [Recovery.putChar]
  by_cases ended : char = newline
  · simpa [ended] using inside.endRow
  by_cases full : screen.textCols ≤ ring.textCol
  · simpa [ended, full] using inside.endRow.advance screen.cols.1
  · simpa [ended, full] using inside.advance (Int.not_le.mp full)

theorem OnScreen.uiPrint (replaceLines : Int) (text : Bytes) :
    OnScreen screen (uiPrint screen ring replaceLines text) := by
  have replaced := Function.Iterate.rec (OnScreen screen) inside
    (fun _ before => before.replaceLine) replaceLines.toNat
  have printed := List.foldlRecOn (cString (text.take 255)) (Recovery.putChar screen) replaced
    fun _ before char _ => before.putChar char
  exact ⟨printed.row, printed.top, printed.col, printed.write ⟨printed.col.1, Int.le_refl _⟩⟩

end

end Ring

/-- The cursors stay on the screen and the writes inside `text` through every sequence of calls of
`ui_print`, just if the screen has more than one row. -/
theorem text_ring_on_screen_iff (screen : Screen) : (∀ prints : List (Int × Bytes), OnScreen screen
      (prints.foldl (fun ring print => uiPrint screen ring print.1 print.2) uiInit)) ↔
      2 ≤ screen.textRows := by
  constructor
  · exact fun always => (always []).top.2
  · intro more prints
    have rows := screen.rows
    have cols := screen.cols
    have started : OnScreen screen uiInit :=
      ⟨⟨Int.le_refl 0, rows.1⟩, ⟨by decide, more⟩, ⟨Int.le_refl 0, by change 0 ≤ _; omega⟩, nofun⟩
    exact List.foldlRecOn prints _ started fun _ before print _ => before.uiPrint print.1 print.2

/-- On a screen of one row `text_top` starts behind it. -/
theorem text_top_behind_single_row :
    ¬ OnScreen ⟨1, 95, by decide, by decide⟩ uiInit := fun inside =>
  absurd inside.top.2 (by decide)

/-! ## Menus -/

/-- What `ui_start_menu` sets up and `ui_menu_select` moves. -/
structure Menu where
  menuTop : Int
  menuItems : Int
  menuSel : Int
  menuShowStart : Int
  deriving DecidableEq, Repr

/-- `ui_menu_select` while a menu is shown. -/
def uiMenuSelect (maxMenuRows sel : Int) (menu : Menu) : Menu :=
  let sel := if sel < 0 then menu.menuItems + sel else sel
  let sel := if menu.menuItems ≤ sel then sel - menu.menuItems else sel
  let start := if sel < menu.menuShowStart ∧ 0 < menu.menuShowStart then sel else menu.menuShowStart
  { menu with
    menuSel := sel
    menuShowStart :=
      if maxMenuRows ≤ sel - start + menu.menuTop then sel + menu.menuTop - maxMenuRows + 1
      else start }

/-- One item down or up. -/
def moveSelection (maxMenuRows : Int) (menu : Menu) (down : Bool) : Menu :=
  uiMenuSelect maxMenuRows (if down then menu.menuSel + 1 else menu.menuSel - 1) menu

/-- An item is selected, and it is in the window.  A window that starts in front of the items would
not be moved up, but none does. -/
def Menu.Visible (maxMenuRows : Int) (menu : Menu) : Prop :=
  (0 ≤ menu.menuSel ∧ menu.menuSel < menu.menuItems) ∧ 0 ≤ menu.menuShowStart ∧
    menu.menuShowStart ≤ menu.menuSel ∧
    menu.menuSel < menu.menuShowStart + maxMenuRows - menu.menuTop

theorem Menu.Visible.moveSelection {menu : Menu} {maxMenuRows : Int}
    (visible : menu.Visible maxMenuRows) (down : Bool) :
    (moveSelection maxMenuRows menu down).Visible maxMenuRows := by
  rw [Recovery.moveSelection, uiMenuSelect, Menu.Visible] at *
  grind

/-- The selected item is in the window after every sequence of moves. -/
theorem menu_selection_visible {maxMenuRows menuTop menuItems initialSelection : Int}
    (top : menuTop < maxMenuRows) (valid : 0 ≤ initialSelection ∧ initialSelection < menuItems)
    (moves : List Bool) : (moves.foldl (moveSelection maxMenuRows)
      ⟨menuTop, menuItems, initialSelection, initialSelection⟩).Visible maxMenuRows := by
  refine List.foldlRecOn moves (moveSelection maxMenuRows) ?_ fun _ before down _ =>
    before.moveSelection down
  refine ⟨valid, valid.1, Int.le_refl _, ?_⟩
  change initialSelection < initialSelection + maxMenuRows - menuTop
  omega

theorem menu_selection_visible_wrapped :
    ([false, true, true].foldl (moveSelection 5) ⟨2, 7, 0, 0⟩).Visible 5 :=
  menu_selection_visible (by decide) ⟨by decide, by decide⟩ _

/-! ## Rows of a menu -/

open List

/-- A string of C, without its NUL. -/
abbrev CText := { text : Bytes // (0 : UInt8) ∉ text }

/-- What `strncpy` of `width` characters and the NUL behind them leave. -/
def terminated (row : CText × Nat) : Bytes :=
  row.1.1.take row.2 ++ replicate (row.2 - row.1.1.length + 1) 0

def itemText (item : CText) : CText :=
  ⟨ascii " - " ++ item.1, fun zero => (mem_append.mp zero).elim (by decide) item.2⟩

def backText : CText := ⟨ascii " - +++++Go Back+++++", by decide⟩

/-- A screen with the settings of what is drawn beside the first header. -/
structure MenuScreen extends Screen where
  showClock : Bool
  showBattery : Bool

/-- `ui_menu_header_offset` of `touch_gui.c`. -/
def uiMenuHeaderOffset (screen : MenuScreen) : Int :=
  let offset := 1 + (if screen.showClock then 5 else 0) + if screen.showBattery then 6 else 0
  if screen.textCols - offset < 0 then 1 else offset

/-- How many characters of a header are copied. -/
def headerWidth (screen : MenuScreen) (index : Nat) : Nat :=
  (screen.textCols - if index = 0 then uiMenuHeaderOffset screen else 1).toNat

/-- The texts of the rows that `ui_start_menu` fills, with the characters that it copies of each:
those of an item up to the last column of `menu[250][64]`. -/
def menuRows (screen : MenuScreen) (headers items : List CText) (back : Bool) : List (CText × Nat) :=
  let top := headers.take screen.textRows.toNat
  top.mapIdx (fun index header => (header, headerWidth screen index)) ++
    (items.take (250 - top.length)).map (itemText ·, 63) ++ if back then [(backText, 20)] else []

def writeRows : (index : Nat) → List (CText × Nat) → Memory → Memory
  | _, [], menu => menu
  | index, row :: rows, menu => writeRows (index + 1) rows (menu.store (64 * index) (terminated row))

/-- Every write was inside `menu`, and each row holds its own text, or the beginning of it, with a
NUL behind it. -/
def RowsHold (rows : List (CText × Nat)) (menu : Memory) : Prop :=
  ∀ index row, rows[index]? = some row → 64 * index + (terminated row).length ≤ 64 * 250 ∧
    ∃ text, text <+: row.1.1 ∧ text ++ [0] <+: menu.load (64 * index) 64

theorem length_terminated (row : CText × Nat) : (terminated row).length = row.2 + 1 := by
  rw [terminated, length_append, length_take, length_replicate]
  omega

theorem writeRows_apart {place count index : Nat} (apart : place + count ≤ 64 * index)
    (rows : List (CText × Nat)) (menu : Memory) :
    (writeRows index rows menu).load place count = menu.load place count := by
  induction rows generalizing index menu with
  | nil => rfl
  | cons row rows ih => rw [writeRows, ih (by omega), Memory.load_store_apart (.inl apart)]

section Rows

variable {rows : List (CText × Nat)} {index : Nat} {row : CText × Nat}

/-- A row begins with what was written for it: the rows behind it leave it alone, and what those in
front of it have written too much is overwritten. -/
theorem writeRows_own (found : rows[index]? = some row) (start : Nat) (menu : Memory) :
    (terminated row).take 64 <+: (writeRows start rows menu).load (64 * (start + index)) 64 := by
  induction rows generalizing index start menu with
  | nil => cases found
  | cons first rows ih =>
    cases index with
    | zero =>
      cases found
      rw [writeRows, writeRows_apart (by omega)]
      exact Memory.take_prefix_load _ _
    | succ index =>
      rw [← Nat.add_assoc, Nat.add_right_comm]
      exact ih found (start + 1) _

/-- A row has its NUL if not more than 63 characters are kept. -/
theorem own_iff (found : rows[index]? = some row) (menu : Memory) :
    (∃ text, text <+: row.1.1 ∧ text ++ [0] <+: (writeRows 0 rows menu).load (64 * index) 64) ↔
      min row.2 row.1.1.length < 64 := by
  have own := writeRows_own found 0 menu
  rw [Nat.zero_add, terminated, replicate_succ] at own
  rw [← length_take]
  constructor
  · rintro ⟨text, -, ended⟩
    by_contra long
    rw [take_append_of_le_length (not_lt.mp long)] at own
    have whole := own.eq_of_length (by rw [Memory.length_load, length_take_of_le (not_lt.mp long)])
    have zero : (0 : UInt8) ∈ (row.1.1.take row.2).take 64 := whole ▸ ended.subset (by simp)
    exact row.1.2 (mem_of_mem_take (mem_of_mem_take zero))
  · intro short
    refine ⟨_, take_prefix _ _, .trans
      (prefix_take_iff.mpr ⟨⟨_, append_cons _ _ _ |>.symm⟩, ?_⟩) own⟩
    rw [length_append]
    exact short

variable {screen : MenuScreen} {headers items : List CText} {back : Bool}

theorem headerWidth_le (screen : MenuScreen) (index : Nat) : headerWidth screen index ≤ 94 := by
  have cols := screen.cols
  have offset : 1 ≤ uiMenuHeaderOffset screen := by
    rw [uiMenuHeaderOffset]
    grind
  rw [headerWidth]
  split <;> omega

/-- A row is for a header, for an item or for the back button. -/
theorem menuRows_cases (found : (menuRows screen headers items back)[index]? = some row) :
    ((headers.take screen.textRows.toNat)[index]? = some row.1 ∧ row.2 = headerWidth screen index ∧
        index < 32) ∨
      (row.2 = 63 ∧ index < 250) ∨ (row.2 = 20 ∧ back = true ∧
        index ≤ (headers.take screen.textRows.toNat).length + items.length) := by
  have limit := screen.rows
  rw [menuRows, append_assoc, getElem?_append] at found
  simp only [length_mapIdx, length_take] at found ⊢
  split at found
  · obtain ⟨header, there, rfl⟩ := Option.map_eq_some_iff.mp (getElem?_mapIdx ▸ found)
    exact .inl ⟨there, rfl, by omega⟩
  rw [getElem?_append] at found
  simp only [length_map, length_take] at found
  split at found
  · obtain ⟨item, there, rfl⟩ := Option.map_eq_some_iff.mp (getElem?_map ▸ found)
    exact .inr (.inl ⟨rfl, by omega⟩)
  cases back with
  | false => cases found
  | true =>
    have last := (List.getElem?_eq_some_iff.mp found).1
    rw [if_pos rfl, length_singleton] at last
    rw [Nat.lt_one_iff.mp last] at found
    cases found
    exact .inr (.inr ⟨rfl, rfl, by omega⟩)

end Rows

/-- The rows of a menu are right just if no header is kept with 64 characters or more, and there is
room for the back button. -/
theorem menu_rows_hold_iff (screen : MenuScreen) (headers items : List CText) (back : Bool)
    (menu : Memory) : RowsHold (menuRows screen headers items back)
        (writeRows 0 (menuRows screen headers items back) menu) ↔
      (∀ index header, (headers.take screen.textRows.toNat)[index]? = some header →
        min (headerWidth screen index) header.1.length < 64) ∧
      (back = true → (headers.take screen.textRows.toNat).length + items.length < 250) := by
  have limit := screen.rows
  constructor
  · intro hold
    refine ⟨fun index header there => ?_, ?_⟩
    · have found : (menuRows screen headers items back)[index]? =
          some (header, headerWidth screen index) := by
        rw [menuRows, append_assoc, getElem?_append_left, getElem?_mapIdx, there]
        · rfl
        · simpa using (List.getElem?_eq_some_iff.mp there).1
      exact (own_iff found menu).mp (hold index _ found).2
    · rintro rfl
      have last := (hold _ (backText, 20) getElem?_concat_length).1
      rw [length_terminated] at last
      simp only [length_append, length_mapIdx, length_map, length_take] at last ⊢
      omega
  rintro ⟨short, room⟩ index row found
  rw [length_terminated, own_iff found]
  rcases menuRows_cases found with ⟨there, width, early⟩ | ⟨width, early⟩ | ⟨width, shown, last⟩
  · have narrow := headerWidth_le screen index
    rw [width]
    exact ⟨by omega, short index row.1 there⟩
  · omega
  · have := room shown
    omega

/-- A header of 64 characters is not ended in its own row, with or without clock and battery. -/
theorem long_header_not_ended : ∃ (screen : Screen) (header : CText), ∀ clock battery,
      ¬ RowsHold (menuRows ⟨screen, clock, battery⟩ [header] [] false)
        (writeRows 0 (menuRows ⟨screen, clock, battery⟩ [header] [] false) fun _ => 0) := by
  refine ⟨⟨1, 95, by decide, by decide⟩, ⟨replicate 64 (byte 'a'), by decide⟩,
    fun clock battery hold => ?_⟩
  have short := (own_iff rfl _).mp (hold 0 _ rfl).2
  revert short
  cases clock <;> cases battery <;> decide

end PhilzTouch.Recovery
