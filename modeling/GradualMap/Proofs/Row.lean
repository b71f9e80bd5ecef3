import GradualMap.Table.Basic

/-!
Rows of slots. A tidy row is what every chain outside an evacuation holds: live slots and holes, and
after them slots never used. A packed row is a tidy one without holes, as an evacuation fills it; a
vacated row is what the evacuation leaves behind.
-/

namespace GradualMap

variable {K V : Type}

namespace Slot

/-- An emptied slot that later slots of its chain hide behind. -/
def hole : Slot K V :=
  { tag := .emptyOne }

/-- A live slot, under a hash byte that is not set apart. -/
def IsFull (slot : Slot K V) : Prop :=
  ∃ top entry, minTopHash ≤ top ∧ slot = .full top entry

@[simp] theorem live?_full (top : UInt8) (entry : Entry K V) :
    (Slot.full top entry).live? = some (top, entry) :=
  rfl

@[simp] theorem live?_empty : (Slot.empty : Slot K V).live? = none :=
  rfl

@[simp] theorem live?_hole : (Slot.hole : Slot K V).live? = none :=
  rfl

@[simp] theorem isEmpty_tag_empty : (Slot.empty : Slot K V).tag.isEmpty = true :=
  rfl

@[simp] theorem isEmpty_tag_hole : (Slot.hole : Slot K V).tag.isEmpty = true :=
  rfl

theorem live?_eq_some {slot : Slot K V} {top : UInt8} {entry : Entry K V} :
    slot.live? = some (top, entry) ↔ slot = .full top entry := by
  rcases slot with ⟨_ | _ | _ | _ | _ | _, _ | _⟩ <;> simp [live?, full]

theorem live?_eq_none_of_isEmpty {slot : Slot K V} (h : slot.tag.isEmpty = true) :
    slot.live? = none := by
  rcases slot with ⟨_ | _ | _ | _ | _ | _, _ | _⟩ <;> first | rfl | cases h

theorem IsFull.isEmpty_tag {slot : Slot K V} (h : slot.IsFull) : slot.tag.isEmpty = false := by
  obtain ⟨_, _, _, rfl⟩ := h
  rfl

theorem not_isFull_of_isEmpty {slot : Slot K V} (h : slot.tag.isEmpty = true) : ¬ slot.IsFull :=
  fun full => by simp [full.isEmpty_tag] at h

theorem IsFull.isEvacuated_tag {slot : Slot K V} (h : slot.IsFull) :
    slot.tag.isEvacuated = false := by
  obtain ⟨_, _, _, rfl⟩ := h
  rfl

end Slot

namespace Row

/-- What a scan sees of a row: its entries under their hash bytes, in order. -/
def live (row : List (Slot K V)) : List (UInt8 × Entry K V) :=
  row.filterMap Slot.live?

/-- With `exact`, a hole is only left where a live slot comes after it. -/
inductive Tidy (exact : Prop) : List (Slot K V) → Prop
  | spare (n : Nat) : Tidy exact (List.replicate n .empty)
  | full {slot : Slot K V} {rest : List (Slot K V)} (h : slot.IsFull) (tidy : Tidy exact rest) :
      Tidy exact (slot :: rest)
  | hole {rest : List (Slot K V)} (tidy : Tidy exact rest) (needed : exact → live rest ≠ []) :
      Tidy exact (.hole :: rest)

def Vacated (row : List (Slot K V)) : Prop :=
  ∀ slot ∈ row, slot.tag.isEvacuated = true ∧ slot.entry = none

/-- The row of `items` in order and nothing else. -/
def Packed (items : List (UInt8 × Entry K V)) (row : List (Slot K V)) : Prop :=
  ∃ spare, row = items.map (fun item => .full item.1 item.2) ++ List.replicate spare .empty

@[simp] theorem live_nil : live ([] : List (Slot K V)) = [] :=
  rfl

theorem live_cons (slot : Slot K V) (row : List (Slot K V)) :
    live (slot :: row) = slot.live?.toList ++ live row := by
  unfold live
  rw [List.filterMap_cons]
  split <;> simp_all

@[simp] theorem live_full_cons (top : UInt8) (entry : Entry K V) (row : List (Slot K V)) :
    live (.full top entry :: row) = (top, entry) :: live row :=
  rfl

@[simp] theorem live_hole_cons (row : List (Slot K V)) : live (.hole :: row) = live row :=
  rfl

@[simp] theorem live_append (row row' : List (Slot K V)) :
    live (row ++ row') = live row ++ live row' :=
  List.filterMap_append

@[simp] theorem live_replicate (n : Nat) :
    live (List.replicate n .empty : List (Slot K V)) = [] := by
  simp [live, List.filterMap_eq_nil_iff]

theorem mem_live {row : List (Slot K V)} {top : UInt8} {entry : Entry K V} :
    (top, entry) ∈ live row ↔ .full top entry ∈ row := by
  simp [live, List.mem_filterMap, Slot.live?_eq_some]

/-- One slot of a row apart from the slots before and after it. -/
theorem eq_append_of_getElem? {row : List (Slot K V)} {i : Nat} {slot : Slot K V}
    (h : row[i]? = some slot) :
    ∃ before after, before.length = i ∧ row = before ++ slot :: after ∧
      ∀ new, row.set i new = before ++ new :: after := by
  obtain ⟨bound, rfl⟩ := List.getElem?_eq_some_iff.mp h
  have split : row = row.take i ++ row[i] :: row.drop (i + 1) := by
    rw [← List.drop_eq_getElem_cons bound, List.take_append_drop]
  refine ⟨row.take i, row.drop (i + 1), by simp; omega, split, fun new => ?_⟩
  rw [List.set_eq_take_append_cons_drop, if_pos bound]

theorem Vacated.live {row : List (Slot K V)} (h : Vacated row) : live row = [] := by
  apply List.filterMap_eq_nil_iff.mpr
  intro slot mem
  obtain ⟨tag, none⟩ := h slot mem
  rcases slot with ⟨_ | _ | _ | _ | _ | _, _⟩ <;> simp_all [Slot.live?]

theorem Vacated.append {row row' : List (Slot K V)} (h : Vacated row) (h' : Vacated row') :
    Vacated (row ++ row') := by
  intro slot mem
  rcases List.mem_append.mp mem with mem | mem
  · exact h slot mem
  · exact h' slot mem

namespace Tidy

variable {exact : Prop} {row : List (Slot K V)}

theorem mono {exact' : Prop} (h : Tidy exact row) (imp : exact' → exact) : Tidy exact' row := by
  induction h with
  | spare n => exact .spare n
  | full h _ ih => exact .full h ih
  | hole _ needed ih => exact .hole ih fun ex => needed (imp ex)

theorem mem (h : Tidy exact row) : ∀ slot ∈ row, slot.IsFull ∨ slot = .hole ∨ slot = .empty := by
  induction h with
  | spare n => exact fun slot mem => .inr (.inr (List.eq_of_mem_replicate mem))
  | full h _ ih =>
    rintro slot (_ | ⟨_, mem⟩)
    · exact .inl h
    · exact ih slot mem
  | hole _ _ ih =>
    rintro slot (_ | ⟨_, mem⟩)
    · exact .inr (.inl rfl)
    · exact ih slot mem

theorem isEvacuated_tag (h : Tidy exact row) {slot : Slot K V} (mem : slot ∈ row) :
    slot.tag.isEvacuated = false := by
  rcases h.mem slot mem with full | rfl | rfl
  · exact full.isEvacuated_tag
  · rfl
  · rfl

theorem minTopHash_le (h : Tidy exact row) {item : UInt8 × Entry K V} (mem : item ∈ live row) :
    minTopHash ≤ item.1 := by
  rcases h.mem _ (mem_live.mp mem) with ⟨top, entry, le, eq⟩ | eq | eq
  · cases eq
    exact le
  · cases eq
  · cases eq

theorem append_empty (h : Tidy exact row) (n : Nat) :
    Tidy exact (row ++ List.replicate n .empty) := by
  induction h with
  | spare m => rw [List.replicate_append_replicate]; exact .spare _
  | full h _ ih => exact .full h ih
  | hole _ needed ih => exact .hole ih (by simpa using needed)

/-- Whatever comes before a live slot is live or a hole. -/
theorem before_full {before after : List (Slot K V)} {slot : Slot K V}
    (h : Tidy exact (before ++ slot :: after)) (full : slot.IsFull) :
    ∀ earlier ∈ before, earlier.IsFull ∨ earlier = .hole := by
  generalize shape : before ++ slot :: after = row at h
  induction h generalizing before with
  | spare n =>
    have mem : slot ∈ List.replicate n .empty := shape ▸ by simp
    rw [List.eq_of_mem_replicate mem] at full
    exact absurd full (Slot.not_isFull_of_isEmpty rfl)
  | full h _ ih =>
    cases before with
    | nil => simp
    | cons head before =>
      injection shape with head_eq shape
      rintro earlier (_ | ⟨_, mem⟩)
      · exact .inl (head_eq ▸ h)
      · exact ih shape earlier mem
  | hole _ _ ih =>
    cases before with
    | nil => simp
    | cons head before =>
      injection shape with head_eq shape
      rintro earlier (_ | ⟨_, mem⟩)
      · exact .inr head_eq
      · exact ih shape earlier mem

theorem suffix (before : List (Slot K V)) {after : List (Slot K V)}
    (h : Tidy exact (before ++ after)) :
    Tidy exact after := by
  generalize shape : before ++ after = row at h
  induction h generalizing before with
  | spare n =>
    rw [(List.append_eq_replicate_iff.mp shape).2.2]
    exact .spare _
  | full h tidy ih =>
    cases before with
    | nil =>
      obtain rfl : after = _ := shape
      exact .full h tidy
    | cons head before =>
      injection shape with _ shape
      exact ih before shape
  | hole tidy needed ih =>
    cases before with
    | nil =>
      obtain rfl : after = _ := shape
      exact .hole tidy needed
    | cons head before =>
      injection shape with _ shape
      exact ih before shape

/-- Used slots, the last of them live where that is asked, and an empty rest. -/
theorem of_used {used : List (Slot K V)} (h : ∀ slot ∈ used, slot.IsFull ∨ slot = .hole)
    (last : exact → ∀ slot ∈ used.getLast?, slot.IsFull) (n : Nat) :
    Tidy exact (used ++ List.replicate n .empty) := by
  induction used with
  | nil => exact .spare n
  | cons slot used ih =>
    have tail : Tidy exact (used ++ List.replicate n .empty) := by
      refine ih (fun slot mem => h slot (.tail _ mem)) fun ex later mem => last ex later ?_
      rw [List.getLast?_cons, mem]
      rfl
    rcases h slot (.head _) with full | rfl
    · exact .full full tail
    · refine .hole tail fun ex => ?_
      cases used with
      | nil => exact absurd (last ex .hole rfl) (Slot.not_isFull_of_isEmpty rfl)
      | cons next used =>
        obtain ⟨top, entry, _, eq⟩ := last ex ((next :: used).getLast (by simp))
          (by simp [List.getLast?_eq_some_getLast])
        have mem : (top, entry) ∈ live (next :: used) :=
          mem_live.mpr (eq ▸ List.getLast_mem (by simp))
        exact List.ne_nil_of_mem (live_append _ _ ▸ List.mem_append_left _ mem)

/-- A live slot may be exchanged for another. -/
theorem exchange {before after : List (Slot K V)} {slot new : Slot K V}
    (h : Tidy exact (before ++ slot :: after)) (old : slot.IsFull) (full : new.IsFull) :
    Tidy exact (before ++ new :: after) := by
  induction before with
  | nil => exact .full full (suffix [slot] h)
  | cons head before ih =>
    have tail := ih (suffix [head] h)
    rcases before_full h old head (.head _) with headFull | rfl
    · exact .full headFull tail
    · refine .hole tail fun _ => ?_
      obtain ⟨top, entry, _, rfl⟩ := full
      simp

/-- A live slot may be emptied where a live slot follows it. -/
theorem punch {before after : List (Slot K V)} {slot : Slot K V}
    (h : Tidy exact (before ++ slot :: after)) (full : slot.IsFull)
    (needed : exact → live after ≠ []) : Tidy exact (before ++ .hole :: after) := by
  induction before with
  | nil => exact .hole (suffix [slot] h) needed
  | cons head before ih =>
    have tail := ih (suffix [head] h)
    rcases before_full h full head (.head _) with headFull | rfl
    · exact .full headFull tail
    · exact .hole tail fun ex => by simpa using fun _ => needed ex

/-- A free slot may be taken if it is the first. -/
theorem fill {i : Nat} {new : Slot K V} (h : Tidy exact row)
    (first : row.findIdx? (·.tag.isEmpty) = some i) (full : new.IsFull) :
    Tidy exact (row.set i new) := by
  induction h generalizing i with
  | spare n =>
    cases n with
    | zero => cases first
    | succ n =>
      obtain rfl : 0 = i := by simpa [List.replicate_succ, List.findIdx?_cons] using first
      exact .full full (.spare n)
  | full h tidy ih =>
    rw [List.findIdx?_cons, h.isEmpty_tag, if_neg Bool.false_ne_true] at first
    obtain ⟨j, later, rfl⟩ := Option.map_eq_some_iff.mp first
    exact .full h (ih later)
  | hole tidy _ _ =>
    obtain rfl : 0 = i := by simpa [List.findIdx?_cons] using first
    exact .full full tidy

end Tidy

theorem Packed.tidy {exact : Prop} {items : List (UInt8 × Entry K V)} {row : List (Slot K V)}
    (h : Packed items row) (bytes : ∀ item ∈ items, minTopHash ≤ item.1) : Tidy exact row := by
  obtain ⟨spare, rfl⟩ := h
  have full : ∀ slot ∈ items.map fun item => Slot.full item.1 item.2, slot.IsFull := by
    intro slot mem
    obtain ⟨item, known, rfl⟩ := List.mem_map.mp mem
    exact ⟨item.1, item.2, bytes item known, rfl⟩
  exact .of_used (fun slot mem => .inl (full slot mem))
    (fun _ slot mem => full slot (List.mem_of_getLast? mem)) spare

theorem Packed.live {items : List (UInt8 × Entry K V)} {row : List (Slot K V)}
    (h : Packed items row) : live row = items := by
  obtain ⟨spare, rfl⟩ := h
  simp [Row.live, List.filterMap_map, Function.comp_def]

end Row

end GradualMap
