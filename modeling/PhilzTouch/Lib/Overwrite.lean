import Mathlib.Data.List.Basic

/-!
# Writing to places of a list

Items are written over those from an offset on.  Writes of one width to places that are apart from
each other commute, can be read back, and a second round of them undoes the first.
-/

namespace PhilzTouch.Places

open List

variable {α ι : Type}

/-- The list with `items` written over its elements from `offset` on. -/
def write (data : List α) (offset : Nat) (items : List α) : List α :=
  data.take offset ++ items ++ data.drop (offset + items.length)

/-- Two ranges of one width do not meet. -/
def Apart (width left right : Nat) : Prop := left + width ≤ right ∨ right + width ≤ left

section One

variable {data items : List α} {offset : Nat} (inside : offset + items.length ≤ data.length)

include inside

theorem length_write : (write data offset items).length = data.length := by
  simp only [write, length_append, length_take, length_drop]
  omega

theorem getElem?_write (index : Nat) : (write data offset items)[index]? =
      if offset ≤ index ∧ index < offset + items.length then items[index - offset]?
      else data[index]? := by
  unfold write
  have front : (data.take offset).length = offset := length_take_of_le (by omega)
  rw [append_assoc]
  by_cases before : index < offset
  · rw [getElem?_append_left (by omega), getElem?_take_of_lt before, if_neg (by omega)]
  rw [getElem?_append_right (by omega), front]
  by_cases within : index < offset + items.length
  · rw [getElem?_append_left (by omega), if_pos (by omega)]
  · rw [getElem?_append_right (by omega), getElem?_drop, if_neg (by omega)]
    congr 1
    omega

theorem write_write {items' : List α} (same : items'.length = items.length) :
    write (write data offset items) offset items' = write data offset items' := by
  apply ext_getElem?
  intro index
  have inside' : offset + items'.length ≤ (write data offset items).length := by
    rw [length_write inside]
    omega
  rw [getElem?_write inside', getElem?_write inside, getElem?_write (by omega)]
  by_cases within : offset ≤ index ∧ index < offset + items'.length
  · rw [if_pos within, if_pos within]
  · rw [if_neg within, if_neg within, if_neg (by omega)]

theorem write_comm {items' : List α} {offset' : Nat} (same : items'.length = items.length)
    (apart : Apart items.length offset offset') (inside' : offset' + items'.length ≤ data.length) :
    write (write data offset items) offset' items' = write (write data offset' items') offset items := by
  apply ext_getElem?
  intro index
  unfold Apart at apart
  rw [getElem?_write (by rw [length_write inside]; exact inside'), getElem?_write inside,
    getElem?_write (by rw [length_write inside']; exact inside), getElem?_write inside']
  by_cases first : offset ≤ index ∧ index < offset + items.length
  · rw [if_pos first, if_neg (by omega), if_pos first]
  · rw [if_neg first, if_neg first]

theorem read_write : ((write data offset items).drop offset).take items.length = items := by
  have front : (data.take offset).length = offset := length_take_of_le (by omega)
  rw [write, append_assoc, drop_append_of_le_length (by omega),
    drop_eq_nil_of_le (by omega), nil_append, take_left]

end One

section Many

variable (place : ι → Nat)

/-- A write for each element of a list. -/
def writeAll (items : ι → List α) (targets : List ι) (data : List α) : List α :=
  targets.foldl (fun data target => write data (place target) (items target)) data

variable {place} {width : Nat} {items : ι → List α} {targets : List ι} {data : List α} {target : ι}

@[simp] theorem writeAll_cons : writeAll place items (target :: targets) data =
      writeAll place items targets (write data (place target) (items target)) := rfl

/-- All targets lie in a list of the given length. -/
def Inside (place : ι → Nat) (width : Nat) (targets : List ι) (length : Nat) : Prop :=
  ∀ target ∈ targets, place target + width ≤ length

theorem Inside.tail {length : Nat} (inside : Inside place width (target :: targets) length) :
    Inside place width targets length :=
  (forall_mem_cons.mp inside).2

variable (sizes : ∀ target, (items target).length = width)

include sizes

theorem Inside.length_write (inside : Inside place width (target :: targets) data.length) :
    (write data (place target) (items target)).length = data.length :=
  Places.length_write (by rw [sizes]; exact inside target mem_cons_self)

variable (inside : Inside place width targets data.length)

include inside

theorem length_writeAll : (writeAll place items targets data).length = data.length := by
  induction targets generalizing data with
  | nil => rfl
  | cons target targets ih =>
    have first := inside.length_write sizes
    rw [writeAll_cons, ih (by rw [first]; exact inside.tail), first]

theorem writeAll_write {offset : Nat} {new : List α} (size : new.length = width)
    (room : offset + width ≤ data.length)
    (apart : ∀ target ∈ targets, Apart width offset (place target)) :
    writeAll place items targets (write data offset new) =
      write (writeAll place items targets data) offset new := by
  induction targets generalizing data with
  | nil => rfl
  | cons target targets ih =>
    have here := inside target mem_cons_self
    have first := inside.length_write sizes
    rw [writeAll_cons, writeAll_cons, write_comm (by rw [size]; exact room)
      (by rw [sizes, size]) (by rw [size]; exact apart target mem_cons_self)
      (by rw [sizes]; exact here)]
    exact ih (by rw [first]; exact inside.tail) (by rw [first]; exact room)
      (forall_mem_cons.mp apart).2

theorem writeAll_writeAll {items' : ι → List α} (sizes' : ∀ target, (items' target).length = width)
    (apart : targets.Pairwise fun left right => Apart width (place left) (place right)) :
    writeAll place items' targets (writeAll place items targets data) =
      writeAll place items' targets data := by
  induction targets generalizing data with
  | nil => rfl
  | cons target targets ih =>
    obtain ⟨others, rest⟩ := pairwise_cons.mp apart
    have here := inside target mem_cons_self
    have first := inside.length_write sizes
    have second := inside.length_write sizes'
    rw [writeAll_cons, writeAll_cons, writeAll_cons, ← writeAll_write sizes
      (by rw [first]; exact inside.tail) (sizes' target) (by rw [first]; exact here) others,
      write_write (by rw [sizes]; exact here) (by rw [sizes, sizes'])]
    exact ih (by rw [second]; exact inside.tail) rest

theorem read_writeAll
    (apart : targets.Pairwise fun left right => Apart width (place left) (place right)) :
    ∀ target ∈ targets,
      ((writeAll place items targets data).drop (place target)).take width = items target := by
  induction targets generalizing data with
  | nil => nofun
  | cons first targets ih =>
    obtain ⟨others, rest⟩ := pairwise_cons.mp apart
    have here := inside first mem_cons_self
    have size := sizes first
    have length := inside.length_write sizes
    intro target member
    rw [writeAll_cons]
    rcases mem_cons.mp member with rfl | later
    · rw [writeAll_write sizes inside.tail size here others]
      nth_rewrite 1 [← size]
      exact read_write (by rw [size, length_writeAll sizes inside.tail]; exact here)
    · exact ih (by rw [length]; exact inside.tail) rest target later

theorem getElem?_writeAll {index : Nat}
    (outside : ∀ target ∈ targets, index < place target ∨ place target + width ≤ index) :
    (writeAll place items targets data)[index]? = data[index]? := by
  induction targets generalizing data with
  | nil => rfl
  | cons target targets ih =>
    have here := inside target mem_cons_self
    have size := sizes target
    have away := outside target mem_cons_self
    have length := inside.length_write sizes
    rw [writeAll_cons, ih (by rw [length]; exact inside.tail) (forall_mem_cons.mp outside).2,
      getElem?_write (by rw [size]; exact here), if_neg (by omega)]

end Many

end PhilzTouch.Places
