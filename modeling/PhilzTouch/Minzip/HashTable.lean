import Mathlib.Data.List.Pairwise
import Mathlib.Data.Nat.Log
import Mathlib.Data.Set.Insert
import PhilzTouch.Lib.Ring
import PhilzTouch.Minzip.Hash

/-!
# The hash table is a finite map

Every slot between the home of an item and the item itself is in use.  As long as this holds, a
probe that starts at the home finds the item before it finds a free slot, and a removed item
leaves a tombstone so that it goes on holding for the others.
-/

namespace PhilzTouch.Minzip

open List HashEntry

variable {α : Type}

/-! ## Slots -/

/-- A slot that holds an item or a tombstone. -/
def HashEntry.used (entry : HashEntry α) : Bool :=
  match entry.data with
  | .null => false
  | _ => true

/-- The item of a slot. -/
def HashEntry.live (entry : HashEntry α) : Option α :=
  match entry.data with
  | .item value => some value
  | _ => none

/-- The items of a table, in the order of its slots. -/
def items (slots : List (HashEntry α)) : List α := slots.filterMap live

variable {entry : HashEntry α} {value : α}

theorem HashEntry.live_eq_some : entry.live = some value ↔ entry.data = .item value := by
  unfold live
  cases entry.data <;> simp

theorem HashEntry.live_null (unused : entry.used = false) : entry.data = .null := by
  unfold used at unused
  cases known : entry.data <;> simp_all

theorem HashEntry.used_item (data : entry.data = .item value) : entry.used = true := by
  rw [used, data]

variable {ends : HashEntry α → Bool} {exponent : Nat}

section Slots

variable {slots : List (HashEntry α)} {index : Nat} {entry : HashEntry α} {value : α}

theorem mem_items : value ∈ items slots ↔
    ∃ index : Nat, ∃ entry : HashEntry α, slots[index]? = some entry ∧ entry.data = .item value := by
  rw [items, mem_filterMap]
  constructor
  · rintro ⟨entry, member, live⟩
    obtain ⟨index, found⟩ := mem_iff_getElem?.mp member
    exact ⟨index, entry, found, live_eq_some.mp live⟩
  · rintro ⟨index, entry, found, data⟩
    exact ⟨entry, mem_of_getElem? found, live_eq_some.mpr data⟩

variable (found : slots[index]? = some entry)

include found

theorem set_split (other : HashEntry α) :
    slots = slots.take index ++ entry :: slots.drop (index + 1) ∧
      slots.set index other = slots.take index ++ other :: slots.drop (index + 1) := by
  obtain ⟨inside, here⟩ := List.getElem?_eq_some_iff.mp found
  refine ⟨?_, ?_⟩
  · rw [← here, getElem_cons_drop, take_append_drop]
  · rw [set_eq_take_append_cons_drop, if_pos inside]

theorem items_set_item (free : entry.used = false) (itemHash : Nat) (item : α) :
    (items (slots.set index ⟨itemHash, .item item⟩)).Perm (item :: items slots) := by
  obtain ⟨before, after⟩ := set_split found ⟨itemHash, .item item⟩
  have none : entry.live = none := by rw [live, live_null free]
  rw [after]
  conv_rhs => rw [before]
  simp only [items, filterMap_append, filterMap_cons, none]
  exact perm_middle

theorem items_set_tombstone (data : entry.data = .item value) :
    (items slots).Perm (value :: items (slots.set index { entry with data := .tombstone })) := by
  obtain ⟨before, after⟩ := set_split found { entry with data := .tombstone }
  have some : entry.live = some value := live_eq_some.mpr data
  rw [after]
  conv_lhs => rw [before]
  simp only [items, filterMap_append, filterMap_cons, some]
  exact perm_middle

theorem countTombStones_set_item (free : entry.used = false) (itemHash : Nat) (item : α) :
    countTombStones (slots.set index ⟨itemHash, .item item⟩) = countTombStones slots := by
  obtain ⟨before, after⟩ := set_split found ⟨itemHash, .item item⟩
  rw [after]
  conv_rhs => rw [before]
  simp [countTombStones, live_null free]

theorem countTombStones_set_tombstone (data : entry.data = .item value) :
    countTombStones (slots.set index { entry with data := .tombstone }) =
      countTombStones slots + 1 := by
  obtain ⟨before, after⟩ := set_split found { entry with data := .tombstone }
  rw [after]
  conv_rhs => rw [before]
  simp [countTombStones, data]
  omega

omit found

theorem used_eq (slots : List (HashEntry α)) :
    slots.countP used = countTombStones slots + (items slots).length := by
  induction slots with
  | nil => rfl
  | cons entry slots ih =>
    rw [countTombStones] at ih ⊢
    rw [items, countP_cons, countP_cons, filterMap_cons, ih, items]
    unfold used live
    cases entry.data with
    | null => simp
    | tombstone => simp; omega
    | item value => simp; omega

theorem exists_free (few : slots.countP used < slots.length) :
    ∃ hole : Nat, ∃ free : HashEntry α, slots[hole]? = some free ∧ free.used = false := by
  by_contra none
  push Not at none
  have full : slots.countP used = slots.length := by
    refine countP_eq_length.mpr fun entry member => ?_
    obtain ⟨index, found⟩ := mem_iff_getElem?.mp member
    exact Bool.not_eq_false _ ▸ none index entry found
  omega

/-! ## The probe loops -/

theorem any_slot (found : slots[index]? = some entry) : slots[index]?.any ends = ends entry := by
  rw [found, Option.any_some]

variable {free : HashEntry α}

/-- With a free slot in the table, the probe goes round the ring. -/
theorem probe_eq_search {hole : Nat} (holeFree : slots[hole]? = some free)
    (stops : ends free = true) (fuel index : Nat) (inside : index < slots.length) :
    probe slots ends fuel index =
      Ring.search slots.length (fun place => slots[place]?.any ends) fuel index := by
  have holeInside := (List.getElem?_eq_some_iff.mp holeFree).1
  induction fuel generalizing index with
  | zero => rfl
  | succ fuel ih =>
    have here := getElem?_eq_getElem inside
    rw [probe, here, Ring.search, any_slot here]
    dsimp only
    split
    · rfl
    next onward =>
    rw [Ring.next]
    split
    next last =>
      rw [if_neg, ih 0 (by omega)]
      intro single
      obtain ⟨rfl, rfl⟩ : index = 0 ∧ hole = 0 := ⟨by omega, by omega⟩
      rw [here] at holeFree
      exact onward (Option.some.inj holeFree ▸ stops)
    next => exact ih (index + 1) (by omega)

theorem probe_first {hole : Nat} (holeFree : slots[hole]? = some free) (stops : ends free = true)
    (inside : index < slots.length) :
    ∃ found entry, probe slots ends slots.length index = some found ∧
      slots[found]? = some entry ∧ ends entry = true ∧
      Ring.First slots.length (fun place => slots[place]?.any ends) index found := by
  have holeInside := (List.getElem?_eq_some_iff.mp holeFree).1
  obtain ⟨found, searched, first⟩ := @Ring.search_first slots.length index
    (fun place => slots[place]?.any ends) inside hole holeInside
    (by rw [any_slot holeFree, stops]) slots.length (Ring.distance_lt inside holeInside)
  have here := getElem?_eq_getElem first.inside
  have ending := first.stops
  rw [any_slot here] at ending
  exact ⟨found, _, (probe_eq_search holeFree stops _ _ inside).trans searched, here, ending, first⟩

section

variable (size : slots.length = 2 ^ exponent)

include size

theorem home_eq (itemHash : Nat) : itemHash &&& (slots.length - 1) = itemHash % slots.length := by
  rw [size, Nat.and_two_pow_sub_one_eq_mod]

theorem home_lt (itemHash : Nat) : itemHash % slots.length < slots.length :=
  Nat.mod_lt _ (size ▸ Nat.two_pow_pos exponent)

theorem freeSlot_eq_search (fuel index : Nat)
    (inside : index < slots.length) : freeSlot slots fuel index =
      Ring.search slots.length (fun place => slots[place]?.any fun entry => !entry.used) fuel
        index := by
  induction fuel generalizing index with
  | zero => rfl
  | succ fuel ih =>
    have here := getElem?_eq_getElem inside
    have step : (index + 1) &&& (slots.length - 1) = Ring.next slots.length index := by
      rw [home_eq size, Ring.next]
      split
      next last => rw [last, Nat.mod_self]
      next => exact Nat.mod_eq_of_lt (by omega)
    rw [freeSlot, here, Ring.search, any_slot here, step, ih _ (Ring.next_lt inside)]
    dsimp only
    cases data : slots[index].data with
    | null => rw [used, data]; rfl
    | tombstone => rw [used, data]; rfl
    | item value => rw [used, data]; rfl

theorem freeSlot_first (few : slots.countP used < slots.length) (inside : index < slots.length) :
    ∃ found, ∃ entry : HashEntry α, freeSlot slots slots.length index = some found ∧
      slots[found]? = some entry ∧ entry.used = false ∧
      Ring.First slots.length (fun place => slots[place]?.any fun entry => !entry.used) index
        found := by
  obtain ⟨hole, free, holeFree, unused⟩ := exists_free few
  have holeInside := (List.getElem?_eq_some_iff.mp holeFree).1
  obtain ⟨found, searched, first⟩ := @Ring.search_first slots.length index
    (fun place => slots[place]?.any fun entry => !entry.used) inside hole holeInside
    (by rw [any_slot holeFree, unused]; rfl) slots.length (Ring.distance_lt inside holeInside)
  have here := getElem?_eq_getElem first.inside
  have ending := first.stops
  rw [any_slot here, Bool.not_eq_true'] at ending
  exact ⟨found, _, (freeSlot_eq_search size _ _ inside).trans searched, here, ending, first⟩

end

end Slots

/-! ## Items and their homes -/

/-- Every item is stored with its hash, and all slots from its home up to it are in use. -/
structure Placed (hash : α → Nat) (slots : List (HashEntry α)) : Prop where
  hashed : ∀ {index : Nat} {entry : HashEntry α} {value : α}, slots[index]? = some entry →
    entry.data = .item value → entry.hashValue = hash value
  chained : ∀ {index : Nat} {entry : HashEntry α} {value : α}, slots[index]? = some entry →
    entry.data = .item value →
    ∀ {place : Nat} {between : HashEntry α}, slots[place]? = some between →
      Ring.distance slots.length (hash value % slots.length) place <
        Ring.distance slots.length (hash value % slots.length) index →
      between.used = true

section Placed

variable {hash : α → Nat} {slots : List (HashEntry α)} {index found : Nat}
  {entry other : HashEntry α} {item value : α}

/-- A slot may be put to use if its new item, when it has one, is at home there. -/
theorem Placed.set (placed : Placed hash slots) (used : other.used = true)
    (fits : ∀ value, other.data = .item value → other.hashValue = hash value ∧
      ∀ (place : Nat) (between : HashEntry α), slots[place]? = some between →
        Ring.distance slots.length (hash value % slots.length) place <
          Ring.distance slots.length (hash value % slots.length) found → between.used = true) :
    Placed hash (slots.set found other) := by
  have changed : ∀ {index : Nat} {entry : HashEntry α}, (slots.set found other)[index]? = some entry →
      index = found ∧ entry = other ∨ slots[index]? = some entry := by
    intro index entry here
    rw [getElem?_set] at here
    split at here
    next same =>
      split at here
      · exact .inl ⟨same.symm, (Option.some.inj here).symm⟩
      · cases here
    next => exact .inr here
  refine ⟨fun here data => ?_, ?_⟩
  · rcases changed here with ⟨-, rfl⟩ | old
    · exact (fits _ data).1
    · exact placed.hashed old data
  intro index entry value here data place between there nearer
  rw [length_set] at nearer
  rcases changed there with ⟨-, rfl⟩ | old
  · exact used
  · rcases changed here with ⟨rfl, rfl⟩ | older
    · exact (fits _ data).2 place between old nearer
    · exact placed.chained older data old nearer

theorem Placed.used_of_first (placed : Placed hash slots) (size : slots.length = 2 ^ exponent)
    (stored : slots[index]? = some other) (data : other.data = .item value)
    (stops : ends other = true) (here : slots[found]? = some entry) {itemHash : Nat}
    (home : hash value = itemHash)
    (first : Ring.First slots.length (fun place => slots[place]?.any ends)
      (itemHash % slots.length) found) : entry.used = true := by
  subst home
  have inside := (List.getElem?_eq_some_iff.mp stored).1
  rcases lt_or_eq_of_le (first.le inside (by rw [any_slot stored, stops])) with nearer | same
  · exact placed.chained stored data here nearer
  · have home := home_lt size (hash value)
    obtain rfl := Ring.distance_inj home first.inside inside same
    rw [here] at stored
    exact Option.some.inj stored ▸ used_item data

theorem placed_of_items_nil (none : items slots = []) : Placed hash slots := by
  have noItem : ∀ {index : Nat} {entry : HashEntry α} {value : α}, slots[index]? = some entry →
      entry.data ≠ .item value := by
    intro index entry value here data
    have known := mem_items.mpr ⟨index, entry, here, data⟩
    rw [none] at known
    cases known
  exact ⟨fun here data => (noItem here data).elim, fun here data => (noItem here data).elim⟩

/-! ## Resizing -/

theorem moveEntry_placed (size : slots.length = 2 ^ exponent) (placed : Placed hash slots)
    (few : slots.countP used < slots.length) (data : entry.data = .item value)
    (hashed : entry.hashValue = hash value) :
    ∃ moved, moveEntry slots entry = some moved ∧ moved.length = slots.length ∧
      Placed hash moved ∧ (items moved).Perm (value :: items slots) ∧
      countTombStones moved = countTombStones slots := by
  obtain ⟨found, free, searched, here, unused, first⟩ :=
    freeSlot_first size few (home_lt size entry.hashValue)
  have same : entry = ⟨entry.hashValue, .item value⟩ := by rw [← data]
  refine ⟨slots.set found entry, ?_, length_set, ?_, ?_, ?_⟩
  · rw [moveEntry, data]
    rw [home_eq size, searched, Option.map_some]
  · refine placed.set (used_item data) fun other known => ?_
    obtain rfl : value = other := by
      rw [data] at known
      cases known
      rfl
    refine ⟨hashed, fun place between there nearer => ?_⟩
    rw [← hashed] at nearer
    have passed := first.passes place (List.getElem?_eq_some_iff.mp there).1 nearer
    rwa [any_slot there, Bool.not_eq_false'] at passed
  · rw [same]
    exact items_set_item here unused _ _
  · rw [same]
    exact countTombStones_set_item here unused _ _

theorem foldlM_moveEntry (entries : List (HashEntry α)) (size : slots.length = 2 ^ exponent)
    (placed : Placed hash slots) (clean : countTombStones slots = 0)
    (few : (items slots).length + (items entries).length < slots.length)
    (hashed : ∀ entry ∈ entries, ∀ value, entry.data = .item value → entry.hashValue = hash value) :
    ∃ moved, entries.foldlM moveEntry slots = some moved ∧ moved.length = slots.length ∧
      Placed hash moved ∧ (items moved).Perm (items entries ++ items slots) ∧
      countTombStones moved = 0 := by
  induction entries generalizing slots with
  | nil => exact ⟨slots, rfl, rfl, placed, .refl _, clean⟩
  | cons entry entries ih =>
    have later := (forall_mem_cons.mp hashed).2
    cases data : entry.live with
    | none =>
      have kept : moveEntry slots entry = some slots := by
        unfold live at data
        unfold moveEntry
        cases known : entry.data <;> simp_all
      have skipped : items (entry :: entries) = items entries := by
        rw [items, filterMap_cons, data, items]
      rw [skipped] at few ⊢
      rw [foldlM_cons, kept]
      exact ih size placed clean few later
    | some value =>
      have known := live_eq_some.mp data
      have joined : items (entry :: entries) = value :: items entries := by
        rw [items, filterMap_cons, data, items]
      rw [joined] at few ⊢
      rw [length_cons] at few
      obtain ⟨moved, done, length, placed', perm, clean'⟩ :=
        moveEntry_placed size placed (by rw [used_eq, clean]; omega) known
          (hashed entry mem_cons_self value known)
      obtain ⟨all, rest, length', placed'', perm', clean''⟩ :=
        ih (length.trans size) placed' (clean'.trans clean)
          (by rw [perm.length_eq, length, length_cons]; omega) later
      refine ⟨all, ?_, length'.trans length, placed'', ?_, clean''⟩
      · rw [foldlM_cons, done]
        exact rest
      · exact perm'.trans ((perm.append_left _).trans perm_middle)

theorem items_emptySlots (size : Nat) : items (emptySlots α size) = [] :=
  filterMap_eq_nil_iff.mpr fun entry member => by
    rw [eq_of_mem_replicate member]
    rfl

theorem countTombStones_emptySlots (size : Nat) : countTombStones (emptySlots α size) = 0 :=
  countP_eq_zero.mpr fun entry member => by
    rw [eq_of_mem_replicate member]
    exact Bool.false_ne_true

theorem resizeHash_placed {table : HashTable α} {exponent : Nat}
    (placed : Placed hash table.pEntries)
    (dead : table.numDeadEntries = countTombStones table.pEntries)
    (few : (items table.pEntries).length < 2 ^ exponent) :
    ∃ slots, resizeHash table (2 ^ exponent) =
        some { table with pEntries := slots, numDeadEntries := 0 } ∧
      slots.length = 2 ^ exponent ∧ Placed hash slots ∧
      (items slots).Perm (items table.pEntries) ∧ countTombStones slots = 0 := by
  have size : (emptySlots α (2 ^ exponent)).length = 2 ^ exponent := length_replicate
  obtain ⟨slots, moved, length, placed', perm, clean⟩ :=
    foldlM_moveEntry table.pEntries size (placed_of_items_nil (items_emptySlots _)) (countTombStones_emptySlots _)
      (by rw [items_emptySlots, length_nil, size]; omega)
      (fun entry member value data => by
        obtain ⟨index, here⟩ := mem_iff_getElem?.mp member
        exact placed.hashed here data)
  refine ⟨slots, ?_, length.trans size, placed', ?_, clean⟩
  · rw [resizeHash, if_neg (not_not.mpr dead.symm), moved]
    simp only [some_bind, if_neg (not_not.mpr clean)]
  · rwa [items_emptySlots, append_nil] at perm

end Placed

/-! ## The table and its contents -/

/-- The table is in order and holds the items of `contents`. -/
structure Sound (hash : α → Nat) (same : α → α → Bool) (table : HashTable α)
    (contents : Set α) : Prop where
  size : ∃ exponent, table.pEntries.length = 2 ^ exponent
  placed : Placed hash table.pEntries
  apart : (items table.pEntries).Pairwise fun first second => same first second = false
  contents : ∀ value, value ∈ items table.pEntries ↔ value ∈ contents
  entries : table.numEntries = (items table.pEntries).length
  dead : table.numDeadEntries = countTombStones table.pEntries
  load : (table.numEntries + table.numDeadEntries) * 8 ≤ table.pEntries.length * 5

/-- The comparison is an equivalence, and equal items have equal hashes. -/
structure Compatible (hash : α → Nat) (same : α → α → Bool) : Prop where
  equivalence : Equivalence fun first second => same first second = true
  hash : ∀ {first second}, same first second = true → hash first = hash second

section Sound

variable {item : α} {slots : List (HashEntry α)} {hash : α → Nat} {same : α → α → Bool}
  {table : HashTable α} {contents : Set α}

theorem Compatible.differ_symm (compatible : Compatible hash same) {first second : α}
    (differ : same first second = false) : same second first = false := by
  by_contra equal
  rw [Bool.not_eq_false] at equal
  exact Bool.false_ne_true (differ.symm.trans (compatible.equivalence.symm equal))

theorem foreachLoop_items {σ : Type} (func : α → σ → Int × σ)
    (goesOn : ∀ value state, (func value state).1 = 0) (slots : List (HashEntry α)) (state : σ) :
    foreachLoop func slots state =
      (0, (items slots).foldl (fun state value => (func value state).2) state) := by
  induction slots generalizing state with
  | nil => rfl
  | cons entry slots ih =>
    rw [foreachLoop, items, filterMap_cons, ← items]
    cases data : entry.data with
    | null => rw [live, data]; exact ih state
    | tombstone => rw [live, data]; exact ih state
    | item value =>
      rw [live, data]
      dsimp only
      rw [if_neg (not_not.mpr (goesOn value state)), ih, foldl_cons]

theorem sound_empty (size : slots.length = 2 ^ exponent)
    (free : ∀ entry ∈ slots, entry.used = false) : Sound hash same ⟨slots, 0, 0⟩ ∅ := by
  have unused : slots.countP used = 0 :=
    countP_eq_zero.mpr fun entry member => by simp [free entry member]
  rw [used_eq] at unused
  have none : items slots = [] := eq_nil_of_length_eq_zero (by omega)
  refine ⟨⟨exponent, size⟩, placed_of_items_nil none, ?_, fun value => ?_, ?_, ?_, ?_⟩
  · rw [none]
    exact .nil
  · rw [none]
    exact ⟨nofun, nofun⟩
  · rw [none, length_nil]
  · dsimp only
    omega
  · exact Nat.zero_le _

variable (compatible : Compatible hash same) (sound : Sound hash same table contents)

include sound

theorem Sound.positive : 0 < table.pEntries.length := by
  obtain ⟨exponent, size⟩ := sound.size
  exact size ▸ Nat.two_pow_pos exponent

theorem Sound.few : table.pEntries.countP used < table.pEntries.length := by
  have positive := sound.positive
  have load := sound.load
  rw [used_eq, ← sound.dead, ← sound.entries]
  omega

/-- The probe of a removal ends at the item itself, or at a free slot. -/
theorem Sound.remove [DecidableEq α] (item : α) :
    ∃ found, ∃ entry : HashEntry α, probe table.pEntries (holds item) table.tableSize
        (hash item &&& (table.tableSize - 1)) = some found ∧ table.pEntries[found]? = some entry ∧
      (entry.data = .item item ∨ entry.data = .null ∧ item ∉ contents) := by
  obtain ⟨exponent, size⟩ := sound.size
  obtain ⟨hole, free, holeFree, unused⟩ := exists_free sound.few
  have holds : free.holds item = true := by rw [holds, live_null unused]
  obtain ⟨found, entry, probed, here, ends, first⟩ :=
    probe_first holeFree holds (home_lt size (hash item))
  rw [← home_eq size] at probed
  refine ⟨found, entry, probed, here, ?_⟩
  cases data : entry.data with
  | tombstone =>
    rw [HashEntry.holds, data] at ends
    cases ends
  | item value =>
    rw [HashEntry.holds, data] at ends
    exact .inl (congrArg _ (of_decide_eq_true ends))
  | null =>
    refine .inr ⟨rfl, fun stored => ?_⟩
    obtain ⟨index, other, there, known⟩ := mem_items.mp ((sound.contents item).mpr stored)
    have stops : other.holds item = true := by
      rw [HashEntry.holds, known]
      exact decide_eq_true rfl
    have used := sound.placed.used_of_first size there known stops here rfl first
    rw [HashEntry.used, data] at used
    cases used

theorem mzHashTableRemove_absent [DecidableEq α] (absent : item ∉ contents) :
    mzHashTableRemove table (hash item) item = some (table, false) := by
  obtain ⟨found, entry, probed, here, data | ⟨data, -⟩⟩ := sound.remove item
  · exact absurd ((sound.contents item).mp (mem_items.mpr ⟨found, entry, here, data⟩)) absent
  · rw [mzHashTableRemove]
    simp only [probed, here, data, some_bind]

theorem addAt_overflow (large : 2 ^ 28 < table.tableSize)
    (found : Nat) (item : α) : addAt table found (hash item) item = none := by
  obtain ⟨exponent, size⟩ := sound.size
  unfold HashTable.tableSize at large
  -- the next power of two is 2^29
  have above : 2 ^ 29 ≤ table.pEntries.length := by
    rw [size] at large ⊢
    exact Nat.pow_le_pow_right Nat.two_pos ((Nat.pow_lt_pow_iff_right Nat.one_lt_two).mp large)
  unfold addAt HashTable.tableSize
  refine if_pos (.inr ?_)
  rw [length_set]
  omega

theorem mzHashTableClear_sound : Sound hash same (mzHashTableClear table).1 ∅ := by
  obtain ⟨exponent, size⟩ := sound.size
  refine sound_empty ((length_map _).trans size) fun entry member => ?_
  obtain ⟨old, -, rfl⟩ := mem_map.mp member
  rfl

include compatible

/-- The probe for an item ends at an equal one, or at a free slot that is a place for it. -/
theorem Sound.lookup (item : α) : ∃ found, ∃ entry : HashEntry α,
      probe table.pEntries (answers (hash item) (same · item)) table.tableSize
        (hash item &&& (table.tableSize - 1)) = some found ∧ table.pEntries[found]? = some entry ∧
      ((∃ value ∈ contents, entry.data = .item value ∧ same value item = true) ∨
        entry.used = false ∧ (∀ value ∈ contents, same value item = false) ∧
        Placed hash (table.pEntries.set found ⟨hash item, .item item⟩)) := by
  obtain ⟨exponent, size⟩ := sound.size
  obtain ⟨hole, free, holeFree, unused⟩ := exists_free sound.few
  have answered : ∀ entry : HashEntry α, entry.used = false →
      entry.answers (hash item) (same · item) = true := by
    intro entry unused
    rw [answers, live_null unused]
  obtain ⟨found, entry, probed, here, ends, first⟩ :=
    probe_first holeFree (answered free unused) (home_lt size (hash item))
  rw [← home_eq size] at probed
  refine ⟨found, entry, probed, here, ?_⟩
  cases data : entry.data with
  | tombstone =>
    rw [answers, data] at ends
    cases ends
  | item value =>
    rw [answers, data] at ends
    have matched := (Bool.and_eq_true _ _ ▸ ends).2
    refine .inl ⟨value, ?_, rfl, matched⟩
    exact (sound.contents value).mp (mem_items.mpr ⟨found, entry, here, data⟩)
  | null =>
    have unused : entry.used = false := by rw [used, data]
    refine .inr ⟨unused, fun value stored => ?_, ?_⟩
    · by_contra equal
      rw [Bool.not_eq_false] at equal
      obtain ⟨index, other, there, known⟩ := mem_items.mp ((sound.contents value).mpr stored)
      have stops : other.answers (hash item) (same · item) = true := by
        rw [answers, known, sound.placed.hashed there known, compatible.hash equal]
        simpa using equal
      have used := sound.placed.used_of_first size there known stops here (compatible.hash equal)
        first
      exact Bool.false_ne_true (unused.symm.trans used)
    refine sound.placed.set rfl fun value known => ?_
    cases known
    refine ⟨rfl, fun place between there nearer => ?_⟩
    have passed := first.passes place (List.getElem?_eq_some_iff.mp there).1 nearer
    rw [any_slot there] at passed
    by_contra free
    rw [answered between (Bool.not_eq_true _ ▸ free)] at passed
    cases passed

theorem Sound.insert (absent : ∀ value ∈ contents, same value item = false)
    (perm : (items slots).Perm (item :: items table.pEntries)) :
    ((items slots).Pairwise fun first second => same first second = false) ∧
      ∀ value, value ∈ items slots ↔ value ∈ Insert.insert item contents := by
  refine ⟨(perm.pairwise_iff compatible.differ_symm).mpr (pairwise_cons.mpr ⟨fun value stored => ?_,
    sound.apart⟩), fun value => ?_⟩
  · exact compatible.differ_symm (absent value ((sound.contents value).mp stored))
  · rw [perm.mem_iff, mem_cons, Set.mem_insert_iff, sound.contents]

theorem mzHashTableLookup_found (stored : value ∈ contents)
    (equal : same value item = true) (doAdd : Bool) :
    mzHashTableLookup table (hash item) item (same · item) doAdd = some (table, some value) := by
  obtain ⟨found, entry, probed, here, ⟨other, stored', data, equal'⟩ | ⟨-, absent, -⟩⟩ :=
    sound.lookup compatible item
  · have unique : other = value := by
      by_contra differ
      have symmetric : Std.Symm fun first second => same first second = false :=
        ⟨fun _ _ => compatible.differ_symm⟩
      have apart := sound.apart.forall ((sound.contents other).mpr stored')
        ((sound.contents value).mpr stored) differ
      have joined := compatible.equivalence.trans equal' (compatible.equivalence.symm equal)
      exact Bool.false_ne_true (apart.symm.trans joined)
    rw [mzHashTableLookup]
    simp only [probed, here, data, unique, some_bind]
  · rw [absent value stored] at equal
    cases equal

theorem mzHashTableLookup_missing (absent : ∀ value ∈ contents, same value item = false) :
    mzHashTableLookup table (hash item) item (same · item) false = some (table, none) := by
  obtain ⟨found, entry, probed, here, ⟨value, stored, data, equal⟩ | ⟨unused, -, -⟩⟩ :=
    sound.lookup compatible item
  · rw [absent value stored] at equal
    cases equal
  · rw [mzHashTableLookup]
    simp only [probed, here, live_null unused, some_bind, if_true]

/-- The table after the addition of an item that it did not hold. -/
structure Added (hash : α → Nat) (same : α → α → Bool) (table : HashTable α) (contents : Set α)
    (item : α) (grown : HashTable α) : Prop where
  sound : Sound hash same grown (Insert.insert item contents)
  entries : grown.numEntries = table.numEntries + 1
  kept : (table.numEntries + 1 + table.numDeadEntries) * 8 ≤ table.tableSize * 5 →
    grown.tableSize = table.tableSize ∧ grown.numDeadEntries = table.numDeadEntries
  doubled : table.tableSize * 5 < (table.numEntries + 1 + table.numDeadEntries) * 8 →
    grown.tableSize = table.tableSize * 2 ∧ grown.numDeadEntries = 0

/-- A new item finds its place, unless the load cannot be computed. -/
theorem addAt_added (absent : ∀ value ∈ contents, same value item = false) {found : Nat}
    (here : table.pEntries[found]? = some entry) (unused : entry.used = false)
    (placed : Placed hash (table.pEntries.set found ⟨hash item, .item item⟩))
    (small : table.tableSize ≤ 2 ^ 28) : ∃ grown, Added hash same table contents item grown ∧
      addAt table found (hash item) item = some grown := by
  have load := sound.load
  have positive := sound.positive
  obtain ⟨exponent, size⟩ := sound.size
  have perm := items_set_item here unused (hash item) item
  have dead := countTombStones_set_item here unused (hash item) item
  have length : (table.pEntries.set found ⟨hash item, .item item⟩).length = table.pEntries.length :=
    length_set
  have count := perm.length_eq
  rw [length_cons, ← sound.entries] at count
  rw [← sound.dead] at dead
  unfold HashTable.tableSize at small
  unfold addAt HashTable.tableSize
  dsimp only
  rw [length, if_neg (by omega)]
  split
  next heavy =>
    obtain ⟨slots, resized, length', placed', perm', clean⟩ :=
      @resizeHash_placed α hash { table with
        pEntries := table.pEntries.set found ⟨hash item, .item item⟩
        numEntries := table.numEntries + 1 } (exponent + 1) placed dead.symm
        (by dsimp only; rw [count, Nat.pow_succ, ← size]; omega)
    have twice : table.pEntries.length * 2 = 2 ^ (exponent + 1) := by rw [size, Nat.pow_succ]
    rw [twice, resized]
    simp only [some_bind]
    rw [length', if_pos (by omega)]
    obtain ⟨apart, contents'⟩ := sound.insert compatible absent (perm'.trans perm)
    refine ⟨_, ⟨⟨⟨exponent + 1, length'⟩, placed', apart, contents', ?_, clean.symm, ?_⟩, rfl,
      fun light => ?_, fun _ => ⟨?_, rfl⟩⟩, rfl⟩
    · exact count.symm.trans perm'.length_eq.symm
    · dsimp only
      rw [length', ← twice]
      rcases lt_or_ge table.pEntries.length 2 with one | more <;> omega
    · exact absurd heavy (not_lt.mpr light)
    · exact length'.trans twice.symm
  next light =>
    simp only [some_bind]
    rw [length, if_pos (by omega)]
    obtain ⟨apart, contents'⟩ := sound.insert compatible absent perm
    refine ⟨_, ?_, rfl⟩
    refine ⟨⟨⟨exponent, length.trans size⟩, placed, apart, contents', count.symm, dead.symm, ?_⟩, rfl,
      fun _ => ⟨?_, rfl⟩, fun heavy => absurd heavy light⟩
    · dsimp only
      omega
    · exact length

theorem mzHashTableLookup_add (absent : ∀ value ∈ contents, same value item = false) :
    (table.tableSize ≤ 2 ^ 28 → ∃ grown, Added hash same table contents item grown ∧
      mzHashTableLookup table (hash item) item (same · item) true = some (grown, some item)) ∧
    (2 ^ 28 < table.tableSize →
      mzHashTableLookup table (hash item) item (same · item) true = none) := by
  obtain ⟨found, entry, probed, here, ⟨value, stored, data, equal⟩ | ⟨unused, -, placed⟩⟩ :=
    sound.lookup compatible item
  · rw [absent value stored] at equal
    cases equal
  rw [mzHashTableLookup]
  simp only [probed, here, live_null unused, some_bind, if_neg Bool.true_eq_false.mp]
  refine ⟨fun small => ?_, fun large => ?_⟩
  · obtain ⟨grown, added, done⟩ := addAt_added compatible sound absent here unused placed small
    exact ⟨grown, added, by rw [done, some_bind]⟩
  · rw [addAt_overflow sound large]
    rfl

theorem mzHashTableRemove_stored [DecidableEq α] (stored : item ∈ contents) :
    ∃ next, mzHashTableRemove table (hash item) item = some (next, true) ∧
      Sound hash same next (contents \ {item}) := by
  obtain ⟨found, entry, probed, here, data | ⟨-, absent⟩⟩ := sound.remove item
  · have perm := items_set_tombstone here data
    have dead := countTombStones_set_tombstone here data
    have length : (table.pEntries.set found { entry with data := .tombstone }).length =
        table.pEntries.length := length_set
    obtain ⟨others, apart⟩ :=
      pairwise_cons.mp ((perm.pairwise_iff compatible.differ_symm).mp sound.apart)
    have count := perm.length_eq
    have load := sound.load
    obtain ⟨exponent, size⟩ := sound.size
    rw [length_cons, ← sound.entries] at count
    rw [← sound.dead] at dead
    rw [mzHashTableRemove]
    simp only [probed, here, data, some_bind]
    refine ⟨_, rfl, ⟨exponent, length.trans size⟩, ?_, apart, fun value => ?_, ?_, dead.symm, ?_⟩
    · exact sound.placed.set rfl nofun
    · rw [Set.mem_sdiff, Set.mem_singleton_iff, ← sound.contents value, perm.mem_iff, mem_cons]
      constructor
      · intro member
        refine ⟨.inr member, ?_⟩
        rintro rfl
        exact Bool.false_ne_true ((others value member).symm.trans (compatible.equivalence.refl value))
      · rintro ⟨rfl | member, other⟩
        · exact absurd rfl other
        · exact member
    · exact Nat.sub_eq_of_eq_add count
    · dsimp only
      omega
  · exact absurd stored absent

end Sound

/-! ## Creation -/

/-- The `count` highest of the bits below `top` are set, and none above. -/
def Smeared (top count value : Nat) : Prop :=
  value < 2 ^ top ∧ ∀ bit < top, top ≤ bit + count → value.testBit bit = true

variable {top count value : Nat}

/-- One line of `roundUpPower2` doubles the number of bits. -/
theorem Smeared.line (smeared : Smeared top count value) :
    Smeared top (count + count) (value ||| value >>> count) := by
  refine ⟨Nat.or_lt_two_pow smeared.1 ?_, fun bit inside high => ?_⟩
  · exact lt_of_le_of_lt (Nat.shiftRight_le _ _) smeared.1
  · rw [Nat.testBit_or, Nat.testBit_shiftRight, Bool.or_eq_true]
    rcases lt_or_ge (count + bit) top with low | near
    · exact .inr (smeared.2 (count + bit) low (by omega))
    · exact .inl (smeared.2 bit inside (by omega))

theorem Smeared.all (smeared : Smeared top count value)
    (enough : top ≤ count) : value = 2 ^ top - 1 := by
  refine Nat.eq_of_testBit_eq fun bit => ?_
  rw [Nat.testBit_two_pow_sub_one]
  rcases lt_or_ge bit top with inside | outside
  · rw [smeared.2 bit inside (by omega), decide_eq_true inside]
  · rw [Nat.testBit_lt_two_pow (Nat.lt_of_lt_of_le smeared.1
      (Nat.pow_le_pow_right Nat.two_pos outside)), decide_eq_false (by omega)]

theorem roundUpPower2_spec {val : Nat} (positive : 0 < val) (small : val ≤ 2 ^ 31) :
    ∃ exponent, (roundUpPower2 (.ofNat 32 val)).toNat = 2 ^ exponent ∧ val ≤ 2 ^ exponent ∧
      2 ^ exponent < 2 * val := by
  have start : (BitVec.ofNat 32 val - 1).toNat = val - 1 := by
    simp [BitVec.toNat_sub]
    omega
  obtain ⟨top, below, above⟩ : ∃ top, val ≤ 2 ^ top ∧ 2 ^ top < 2 * val := by
    refine ⟨Nat.clog 2 val, Nat.le_pow_clog Nat.one_lt_two _, ?_⟩
    rcases Nat.eq_or_lt_of_le positive with one | more
    · rw [← one, Nat.clog_one_right]
      decide
    · have less := Nat.pow_pred_clog_lt_self Nat.one_lt_two more
      have nonzero := Nat.clog_pos Nat.one_lt_two more
      have split : 2 ^ Nat.clog 2 val = 2 ^ (Nat.clog 2 val).pred * 2 := by
        rw [← Nat.pow_succ, Nat.succ_pred_eq_of_pos nonzero]
      omega
  have top31 : top ≤ 31 := by
    by_contra high
    have := Nat.pow_le_pow_right Nat.two_pos (Nat.lt_of_not_le high)
    omega
  have first : Smeared top 1 (val - 1) := by
    refine ⟨by omega, fun bit inside high => ?_⟩
    obtain rfl : top = bit + 1 := by omega
    exact Nat.testBit_of_two_pow_le_and_two_pow_add_one_gt (by omega) (by omega)
  refine ⟨top, ?_, below, above⟩
  have last := first.line.line.line.line.line.all (by omega)
  unfold roundUpPower2
  simp only [BitVec.toNat_add, BitVec.toNat_or, BitVec.toNat_ushiftRight, start]
  rw [last]
  change (2 ^ top - 1 + 1) % 2 ^ 32 = 2 ^ top
  rw [Nat.sub_add_cancel (Nat.two_pow_pos top), Nat.mod_eq_of_lt (by omega)]

variable {hash : α → Nat} {same : α → α → Bool}

theorem mzHashTableCreate_sound {initialSize : Nat}
    (positive : 0 < initialSize) (small : initialSize ≤ 2 ^ 28) :
    Sound hash same (mzHashTableCreate α initialSize) ∅ := by
  obtain ⟨exponent, size, -, -⟩ := roundUpPower2_spec positive (le_trans small (by decide))
  refine sound_empty (length_replicate.trans size) fun entry member => ?_
  rw [eq_of_mem_replicate member, used]

/-! ## Histories -/

inductive HashOp (α : Type) where
  | lookup (item : α) (doAdd : Bool)
  | remove (item : α)
  | clear
  deriving DecidableEq, Repr

inductive HashReply (α : Type) where
  | found (result : Option α)
  | removed (result : Bool)
  | cleared (freed : List α)
  deriving DecidableEq, Repr

/-- One operation, with the hash of its item. -/
def HashOp.perform [DecidableEq α] (hash : α → Nat) (same : α → α → Bool) (table : HashTable α) :
    HashOp α → Option (HashTable α × HashReply α)
  | .lookup item doAdd => do
    let (next, result) ← mzHashTableLookup table (hash item) item (same · item) doAdd
    some (next, .found result)
  | .remove item => do
    let (next, result) ← mzHashTableRemove table (hash item) item
    some (next, .removed result)
  | .clear => some ((mzHashTableClear table).1, .cleared (mzHashTableClear table).2)

def performAll [DecidableEq α] (hash : α → Nat) (same : α → α → Bool) :
    HashTable α → List (HashOp α) → Option (HashTable α × List (HashReply α))
  | table, [] => some (table, [])
  | table, op :: ops => do
    let (next, reply) ← op.perform hash same table
    let (last, replies) ← performAll hash same next ops
    some (last, reply :: replies)

/-- What an operation does to a set of items that are pairwise different. -/
inductive MapStep (same : α → α → Bool) : Set α → HashOp α → Set α → HashReply α → Prop where
  | found {contents : Set α} {item value : α} (doAdd : Bool) (stored : value ∈ contents)
      (equal : same value item = true) :
      MapStep same contents (.lookup item doAdd) contents (.found (some value))
  | missing {contents : Set α} {item : α} (absent : ∀ value ∈ contents, same value item = false) :
      MapStep same contents (.lookup item false) contents (.found none)
  | added {contents : Set α} {item : α} (absent : ∀ value ∈ contents, same value item = false) :
      MapStep same contents (.lookup item true) (Insert.insert item contents) (.found (some item))
  | removed {contents : Set α} {item : α} (stored : item ∈ contents) :
      MapStep same contents (.remove item) (contents \ {item}) (.removed true)
  | unknown {contents : Set α} {item : α} (absent : item ∉ contents) :
      MapStep same contents (.remove item) contents (.removed false)
  | cleared {contents : Set α} {freed : List α} (once : freed.Nodup)
      (all : ∀ value, value ∈ freed ↔ value ∈ contents) :
      MapStep same contents .clear ∅ (.cleared freed)

/-- What a sequence of operations does. -/
inductive MapSteps (same : α → α → Bool) :
    Set α → List (HashOp α) → Set α → List (HashReply α) → Prop where
  | done (contents : Set α) : MapSteps same contents [] contents []
  | step {contents next last : Set α} {op : HashOp α} {ops : List (HashOp α)} {reply : HashReply α}
      {replies : List (HashReply α)} (first : MapStep same contents op next reply)
      (rest : MapSteps same next ops last replies) :
      MapSteps same contents (op :: ops) last (reply :: replies)

/-- What can be seen of a table that holds the items of `contents`. -/
structure Refines (table : HashTable α) (contents : Set α) : Prop where
  power : ∃ exponent, table.tableSize = 2 ^ exponent
  free : ∃ entry ∈ table.pEntries, entry.data = .null
  dead : table.numDeadEntries = countTombStones table.pEntries
  /-- `mzHashForeach` visits each item once. -/
  visits : ∃ visited : List α, visited.Nodup ∧ (∀ value, value ∈ visited ↔ value ∈ contents) ∧
    ∀ (σ : Type) (func : α → σ → Int × σ) (state : σ), (∀ value state, (func value state).1 = 0) →
      mzHashForeach table func state =
        (0, visited.foldl (fun state value => (func value state).2) state)

section History

variable {hash : α → Nat} {same : α → α → Bool} {table : HashTable α} {contents : Set α}
  (compatible : Compatible hash same) (sound : Sound hash same table contents)

include compatible sound

theorem Sound.nodup : (items table.pEntries).Nodup := by
  refine sound.apart.imp fun differ => ?_
  rintro rfl
  exact Bool.false_ne_true (differ.symm.trans (compatible.equivalence.refl _))

theorem Sound.refines : Refines table contents := by
  refine ⟨sound.size, ?_, sound.dead, items table.pEntries, sound.nodup compatible, sound.contents,
    fun σ func state goesOn => foreachLoop_items func goesOn _ state⟩
  obtain ⟨hole, free, here, unused⟩ := exists_free sound.few
  exact ⟨free, mem_of_getElem? here, live_null unused⟩

variable [DecidableEq α]

/-- The load can be computed, should the operation have to add its item. -/
def Fits (same : α → α → Bool) (table : HashTable α) (op : HashOp α) : Prop :=
  ∀ item, op = .lookup item true → (∀ value ∈ items table.pEntries, same value item = false) →
    table.tableSize ≤ 2 ^ 28

/-- Each operation does to the table what it does to the set, as long as it fits. -/
theorem perform_step (op : HashOp α) :
    (Fits same table op → ∃ next reply after, op.perform hash same table = some (next, reply) ∧
      MapStep same contents op after reply ∧ Sound hash same next after) ∧
    (¬ Fits same table op → op.perform hash same table = none) := by
  cases op with
  | clear =>
    refine ⟨fun _ => ⟨_, _, _, rfl, ?_, mzHashTableClear_sound sound⟩, fun unfit => ?_⟩
    · exact .cleared (sound.nodup compatible) sound.contents
    · exact absurd (fun _ => nofun) unfit
  | remove item =>
    refine ⟨fun _ => ?_, fun unfit => absurd (fun _ => nofun) unfit⟩
    by_cases stored : item ∈ contents
    · obtain ⟨next, removed, after⟩ := mzHashTableRemove_stored compatible sound stored
      exact ⟨next, _, _, by rw [HashOp.perform, removed]; rfl, .removed stored, after⟩
    · exact ⟨table, _, _, by rw [HashOp.perform, mzHashTableRemove_absent sound stored]; rfl,
        .unknown stored, sound⟩
  | lookup item doAdd =>
    by_cases present : ∃ value ∈ contents, same value item = true
    · obtain ⟨value, stored, equal⟩ := present
      have found := mzHashTableLookup_found compatible sound stored equal doAdd
      refine ⟨fun _ => ⟨table, _, _, by rw [HashOp.perform, found]; rfl,
        .found doAdd stored equal, sound⟩, fun unfit => ?_⟩
      refine absurd (fun other known absent => ?_) unfit
      cases known
      rw [absent value ((sound.contents value).mpr stored)] at equal
      cases equal
    have absent : ∀ value ∈ contents, same value item = false := by
      intro value stored
      exact Bool.eq_false_iff.mpr fun equal => present ⟨value, stored, equal⟩
    cases doAdd with
    | false =>
      refine ⟨fun _ => ⟨table, _, _, ?_, .missing absent, sound⟩,
        fun unfit => absurd (fun _ => nofun) unfit⟩
      rw [HashOp.perform, mzHashTableLookup_missing compatible sound absent]
      rfl
    | true =>
      obtain ⟨adds, overflows⟩ := mzHashTableLookup_add compatible sound absent
      constructor
      · intro fits
        obtain ⟨grown, added, done⟩ := adds (fits item rfl fun value stored =>
          absent value ((sound.contents value).mp stored))
        exact ⟨grown, _, _, by rw [HashOp.perform, done]; rfl, .added absent, added.sound⟩
      · intro unfit
        rw [HashOp.perform, overflows]
        · rfl
        · by_contra small
          exact unfit fun _ _ _ => Nat.le_of_not_lt small

omit compatible sound in
theorem performAll_cons (table : HashTable α) (op : HashOp α) (ops : List (HashOp α)) :
    performAll hash same table (op :: ops) = (op.perform hash same table).bind fun done =>
        (performAll hash same done.1 ops).map fun rest => (rest.1, done.2 :: rest.2) := by
  rw [performAll]
  cases op.perform hash same table with
  | none => rfl
  | some done =>
    simp only [some_bind, Option.bind_some]
    cases performAll hash same done.1 ops <;> rfl

/-- Every operation fits the table that it is performed on. -/
def AllFit (hash : α → Nat) (same : α → α → Bool) (table : HashTable α) (ops : List (HashOp α)) :
    Prop :=
  ∀ front op rest before replies, ops = front ++ op :: rest →
    performAll hash same table front = some (before, replies) → Fits same before op

/-- When every operation fits, the sequence does to the table what it does to the set. -/
theorem performAll_steps (ops : List (HashOp α)) (fit : AllFit hash same table ops) :
    ∃ last replies after, performAll hash same table ops = some (last, replies) ∧
      MapSteps same contents ops after replies ∧ Sound hash same last after := by
  induction ops generalizing table contents with
  | nil => exact ⟨table, [], contents, rfl, .done _, sound⟩
  | cons op ops ih =>
    obtain ⟨next, reply, middle, performed, step, sound'⟩ :=
      (perform_step compatible sound op).1 (fit [] op ops table [] rfl rfl)
    have later : AllFit hash same next ops := by
      intro front other rest before replies known reached
      refine fit (op :: front) other rest before (reply :: replies) (congrArg _ known) ?_
      rw [performAll_cons, performed, Option.bind_some, reached, Option.map_some]
    obtain ⟨last, replies, after, done, steps, sound''⟩ := ih sound' later
    refine ⟨last, reply :: replies, after, ?_, .step step steps, sound''⟩
    rw [performAll_cons, performed, Option.bind_some, done, Option.map_some]

theorem performAll_fit
    (ops : List (HashOp α)) (ends : (performAll hash same table ops).isSome = true) :
    AllFit hash same table ops := by
  induction ops generalizing table contents with
  | nil =>
    intro front op rest before replies known
    simp at known
  | cons op ops ih =>
    have fits : Fits same table op := by
      by_contra unfit
      rw [performAll_cons, (perform_step compatible sound op).2 unfit] at ends
      cases ends
    obtain ⟨next, reply, middle, performed, -, sound'⟩ := (perform_step compatible sound op).1 fits
    rw [performAll_cons, performed, Option.bind_some, Option.isSome_map] at ends
    intro front other rest before replies known reached
    cases front with
    | nil =>
      cases known
      cases reached
      exact fits
    | cons first front =>
      cases known
      rw [performAll_cons, performed, Option.bind_some] at reached
      obtain ⟨⟨before', seen⟩, earlier, same'⟩ := Option.map_eq_some_iff.mp reached
      cases same'
      exact ih sound' ends front other rest before' seen rfl earlier

end History

/-- From its creation on, a table is a finite map.  A sequence of operations does to it what it
does to a set of items, just if no item has to be added to a table of more than 2^28 slots. -/
theorem hashTable_refines_map [DecidableEq α] (hash : α → Nat) (same : α → α → Bool)
    (compatible : Compatible hash same) (initialSize : Nat) (positive : 0 < initialSize)
    (small : initialSize ≤ 2 ^ 28) (ops : List (HashOp α)) : (∃ table replies contents,
      performAll hash same (mzHashTableCreate α initialSize) ops = some (table, replies) ∧
      MapSteps same ∅ ops contents replies ∧ Refines table contents) ↔
    ∀ front item rest before replies, ops = front ++ .lookup item true :: rest →
      performAll hash same (mzHashTableCreate α initialSize) front = some (before, replies) →
      (∀ value ∈ items before.pEntries, same value item = false) → before.tableSize ≤ 2 ^ 28 := by
  have created : Sound hash same (mzHashTableCreate α initialSize) ∅ :=
    mzHashTableCreate_sound positive small
  constructor
  · rintro ⟨table, replies, contents, done, -, -⟩ front item rest before seen known reached absent
    exact performAll_fit compatible created ops (by rw [done]; rfl) front _ rest before seen known
      reached item rfl absent
  intro all
  have fit : AllFit hash same (mzHashTableCreate α initialSize) ops := by
    rintro front op rest before replies known reached item rfl absent
    exact all front item rest before replies known reached absent
  obtain ⟨table, replies, contents, done, steps, sound⟩ := performAll_steps compatible created ops fit
  exact ⟨table, replies, contents, done, steps, sound.refines compatible⟩

/-! ## Numbers as items -/

/-- The hash by which the numbers of the examples are stored. -/
def sampleHash (number : Nat) : Nat := number % 4

theorem sample_compatible : Compatible sampleHash fun first second : Nat => first == second := by
  refine ⟨⟨beq_self_eq_true, fun equal => ?_, fun equal next => ?_⟩, fun equal => ?_⟩
  · rw [eq_of_beq equal]
    exact beq_self_eq_true _
  · rw [eq_of_beq equal]
    exact next
  · rw [eq_of_beq equal]

theorem hashTable_refines_map_sample : ∃ table replies contents,
      performAll sampleHash (fun first second => first == second) (mzHashTableCreate Nat 1)
        [.lookup 7 true, .remove 7] = some (table, replies) ∧
      MapSteps (fun first second => first == second) ∅ [.lookup 7 true, .remove 7] contents replies ∧
      Refines table contents := by
  refine (hashTable_refines_map sampleHash _ sample_compatible 1 (by decide) (by decide) _).mpr ?_
  intro front item rest before replies known reached _
  match front with
  | [] =>
    cases reached
    decide
  | [_] => cases known
  | _ :: _ :: _ => simp at known

theorem performAll_snoc [DecidableEq α]
    (table : HashTable α) (ops : List (HashOp α)) (op : HashOp α) :
    performAll hash same table (ops ++ [op]) = (performAll hash same table ops).bind fun done =>
        (op.perform hash same done.1).map fun last => (last.1, done.2 ++ [last.2]) := by
  induction ops generalizing table with
  | nil =>
    rw [nil_append, performAll_cons, performAll, Option.bind_some]
    cases op.perform hash same table <;> rfl
  | cons first ops ih =>
    rw [cons_append, performAll_cons, performAll_cons]
    cases first.perform hash same table with
    | none => rfl
    | some done =>
      rw [Option.bind_some, Option.bind_some, ih]
      cases performAll hash same done.1 ops with
      | none => rfl
      | some rest =>
        simp only [Option.bind_some, Option.map_some]
        cases op.perform hash same rest.1 <;> rfl

/-- Add the numbers below `count`. -/
def addNumbers (count : Nat) : List (HashOp Nat) := (range count).map (.lookup · true)

/-- A table of 2^28 slots doubles when it is more than five eighths full. -/
theorem performAll_addNumbers (count : Nat) (few : count ≤ 2 ^ 28 * 5 / 8 + 1) : ∃ table replies,
      performAll sampleHash (fun first second => first == second) (mzHashTableCreate Nat (2 ^ 28))
        (addNumbers count) = some (table, replies) ∧
      Sound sampleHash (fun first second => first == second) table {number | number < count} ∧
      table.numEntries = count ∧ table.numDeadEntries = 0 ∧
      table.tableSize = if count ≤ 2 ^ 28 * 5 / 8 then 2 ^ 28 else 2 ^ 29 := by
  induction count with
  | zero =>
    refine ⟨_, _, rfl, ?_, rfl, rfl, ?_⟩
    · have created := @mzHashTableCreate_sound Nat sampleHash (fun first second => first == second)
        (2 ^ 28) (by decide) le_rfl
      have empty : {number | number < 0} = (∅ : Set Nat) := Set.ext fun _ => ⟨nofun, nofun⟩
      rwa [empty]
    · rw [if_pos (Nat.zero_le _)]
      exact length_replicate.trans (by decide)
  | succ count ih =>
    obtain ⟨table, replies, done, sound, entries, dead, size⟩ := ih (by omega)
    rw [if_pos (by omega)] at size
    have absent : ∀ number ∈ {number | number < count}, (number == count) = false :=
      fun number less => beq_false_of_ne (ne_of_lt less)
    obtain ⟨grown, added, performed⟩ :=
      (mzHashTableLookup_add sample_compatible sound absent).1 (le_of_eq size)
    have more : Insert.insert count {number | number < count} = {number | number < count + 1} := by
      ext number
      rw [Set.mem_insert_iff, Set.mem_ofPred_eq, Set.mem_ofPred_eq]
      omega
    have sound' := added.sound
    have kept := added.kept
    have doubled := added.doubled
    rw [more] at sound'
    rw [size, entries, dead] at kept doubled
    refine ⟨grown, replies ++ [.found (some count)], ?_, sound', ?_, ?_, ?_⟩
    · rw [addNumbers, range_succ, map_append, map_cons, map_nil, performAll_snoc,
        ← addNumbers, done, Option.bind_some, HashOp.perform, performed]
      rfl
    · rw [added.entries, entries]
    · rcases lt_or_ge (2 ^ 28 * 5) ((count + 1 + 0) * 8) with heavy | light
      · exact (doubled heavy).2
      · exact (kept light).2
    · split
      · exact (kept (by omega)).1
      · exact (doubled (by omega)).1

/-- One more number doubles the table, and for the next one `tableSize * LOAD_NUMER` overflows. -/
theorem hashTable_overflows :
    performAll sampleHash (fun first second => first == second) (mzHashTableCreate Nat (2 ^ 28))
      (addNumbers (2 ^ 28 * 5 / 8 + 2)) = none := by
  obtain ⟨table, replies, done, sound, -, -, size⟩ :=
    performAll_addNumbers (2 ^ 28 * 5 / 8 + 1) le_rfl
  rw [if_neg (by omega)] at size
  have absent : ∀ number ∈ {number | number < 2 ^ 28 * 5 / 8 + 1},
      (number == 2 ^ 28 * 5 / 8 + 1) = false := fun number less => beq_false_of_ne (ne_of_lt less)
  have overflow := (mzHashTableLookup_add sample_compatible sound absent).2 (by rw [size]; decide)
  rw [addNumbers, range_succ, map_append, map_cons, map_nil, performAll_snoc,
    ← addNumbers, done, Option.bind_some, HashOp.perform, overflow]
  rfl

end PhilzTouch.Minzip
