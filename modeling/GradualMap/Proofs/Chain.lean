import GradualMap.Proofs.Row

/-!
What the operations on one chain do to its row: which entries it shows afterwards, and that it stays
tidy.
-/

namespace GradualMap

variable {K V : Type}

/-- What `settle` splits a row into. -/
theorem settle_eq (p : Tag → Bool) (row : List (Slot K V)) :
    ∃ kept tail, row = kept ++ tail ∧
      settle p row = kept ++ tail.map (fun slot => { slot with tag := .emptyRest }) ∧
      (∀ slot ∈ tail, p slot.tag = true) ∧ ∀ last ∈ kept.getLast?, p last.tag = false := by
  let test : Slot K V → Bool := fun slot => p slot.tag
  refine ⟨(row.reverse.dropWhile test).reverse, (row.reverse.takeWhile test).reverse,
    ?_, rfl, ?_, ?_⟩
  · rw [← List.reverse_append, List.takeWhile_append_dropWhile, List.reverse_reverse]
  · intro slot mem
    exact List.all_eq_true.mp List.all_takeWhile slot (List.mem_reverse.mp mem)
  · intro last mem
    rw [List.getLast?_reverse, Option.mem_def] at mem
    have head := List.head?_dropWhile_not test row.reverse
    rw [mem] at head
    simpa using head

theorem rotateLeft_perm {α : Type} (xs : List α) (n : Nat) : (xs.rotateLeft n).Perm xs := by
  simp only [List.rotateLeft]
  split
  · exact .refl xs
  · exact List.perm_append_comm.trans (.of_eq (List.take_append_drop _ xs))

namespace Row

/-- What one slot shows apart from what the others do. -/
theorem live_set {row : List (Slot K V)} {i : Nat} {slot : Slot K V} (h : row[i]? = some slot) :
    ∃ rest, (live row).Perm (slot.live?.toList ++ rest) ∧
      ∀ new, (live (row.set i new)).Perm (new.live?.toList ++ rest) := by
  obtain ⟨before, after, _, rfl, replaced⟩ := eq_append_of_getElem? h
  have shown (new : Slot K V) :
      (live (before ++ new :: after)).Perm (new.live?.toList ++ (live before ++ live after)) := by
    rw [live_append, live_cons]
    exact List.perm_append_comm_assoc _ _ _
  exact ⟨live before ++ live after, shown slot, fun new => replaced new ▸ shown new⟩

theorem map_emptyRest {tail : List (Slot K V)} (h : ∀ slot ∈ tail, slot.entry = none) :
    tail.map (fun slot => { slot with tag := .emptyRest }) =
      List.replicate tail.length .empty := by
  apply List.eq_replicate_iff.mpr
  refine ⟨by simp, fun slot mem => ?_⟩
  obtain ⟨old, known, rfl⟩ := List.mem_map.mp mem
  simp [h old known, Slot.empty]

namespace Tidy

variable {exact : Prop} {p : Tag → Bool} {row : List (Slot K V)}

/-- A slot that `settle` may pass over holds nothing. -/
theorem entry_eq_none (h : Tidy exact row) (full : ∀ top, p (.full top) = false)
    {slot : Slot K V} (mem : slot ∈ row) (passed : p slot.tag = true) :
    slot.live? = none ∧ slot.entry = none := by
  rcases h.mem slot mem with ⟨top, entry, _, rfl⟩ | rfl | rfl
  · exact absurd passed (by simp [Slot.full, full])
  · exact ⟨rfl, rfl⟩
  · exact ⟨rfl, rfl⟩

theorem after {earlier later : List (Slot K V)} {slot : Slot K V}
    (h : Tidy exact (earlier ++ slot :: later)) : Tidy exact later :=
  suffix (earlier ++ [slot]) (by simpa using h)

/-- What is left of a row up to a slot that is emptied. -/
theorem up_to_hole {earlier later : List (Slot K V)} {slot : Slot K V}
    (h : Tidy exact (earlier ++ slot :: later)) (full : slot.IsFull) :
    Tidy False (earlier ++ [.hole]) := by
  have used : ∀ slot ∈ earlier ++ [.hole], slot.IsFull ∨ slot = .hole := by
    intro slot mem
    rcases List.mem_append.mp mem with mem | mem
    · exact h.before_full full slot mem
    · exact .inr (List.mem_singleton.mp mem)
  simpa using Tidy.of_used used False.elim 0

theorem live_settle (h : Tidy exact row) (full : ∀ top, p (.full top) = false) :
    live (settle p row) = live row := by
  obtain ⟨kept, tail, rfl, eq, passed, _⟩ := settle_eq p row
  have held : ∀ slot ∈ tail, slot.live? = none ∧ slot.entry = none := fun slot mem =>
    h.entry_eq_none full (List.mem_append_right _ mem) (passed slot mem)
  have none : live tail = [] := List.filterMap_eq_nil_iff.mpr fun slot mem => (held slot mem).1
  rw [eq, map_emptyRest fun slot mem => (held slot mem).2, live_append, live_append, live_replicate,
    none]

/-- What `settle` keeps ends with a live slot, if it passes over holes and unused slots. -/
theorem settle (h : Tidy False row) (full : ∀ top, p (.full top) = false)
    (hole : p .emptyOne = true) (empty : .empty ∈ row → p .emptyRest = true) (spare : Nat) :
    Tidy exact (settle p row ++ List.replicate spare .empty) := by
  obtain ⟨kept, tail, rfl, eq, passed, last⟩ := settle_eq p row
  rw [eq, map_emptyRest fun slot mem =>
    (h.entry_eq_none full (List.mem_append_right _ mem) (passed slot mem)).2, List.append_assoc,
    List.replicate_append_replicate]
  rcases kept.eq_nil_or_concat with rfl | ⟨init, final, concat⟩
  · exact .spare _
  · rw [List.concat_eq_append] at concat
    subst concat
    have isFull : final.IsFull := by
      have stops : p final.tag = false := last final (by simp)
      rcases h.mem final (by simp) with isFull | rfl | rfl
      · exact isFull
      · exact absurd hole (Bool.eq_false_iff.mp stops)
      · exact absurd (empty (by simp)) (Bool.eq_false_iff.mp stops)
    have earlier : ∀ slot ∈ init, slot.IsFull ∨ slot = .hole :=
      before_full (by simpa using h) isFull
    refine .of_used (fun slot mem => ?_) (fun _ slot mem => ?_) _
    · rcases List.mem_append.mp mem with mem | mem
      · exact earlier slot mem
      · exact .inl (List.mem_singleton.mp mem ▸ isFull)
    · obtain rfl : final = slot := by simpa using mem
      exact isFull

end Tidy

end Row

namespace Chain

variable {exact : Prop} {chain : Chain K V}

def live (chain : Chain K V) : List (UInt8 × Entry K V) :=
  Row.live chain.slots

def entries (chain : Chain K V) : List (Entry K V) :=
  chain.live.map (·.2)

@[simp] theorem slots_empty : (empty : Chain K V).slots = List.replicate bucketSize .empty :=
  rfl

@[simp] theorem live_empty : (empty : Chain K V).live = [] :=
  Row.live_replicate _

@[simp] theorem entries_empty : (empty : Chain K V).entries = [] := by
  simp [entries]

@[simp] theorem live_link (cell : Nat) : (chain.link cell).live = chain.live := by
  simp [live]

theorem set_set (i : Nat) (slot new : Slot K V) :
    (chain.set i slot).set i new = chain.set i new := by
  simp [set]

theorem slots_ne_nil (chain : Chain K V) : chain.slots ≠ [] := by
  intro none
  have length := chain.length_slots
  rw [none, bucketSize] at length
  simp at length

/-- Every slot of a vacated chain says so, and none of a tidy one does. -/
theorem entries_of_vacated (h : Row.Vacated chain.slots) : chain.entries = [] := by
  rw [entries, live, h.live, List.map_nil]

theorem isEvacuated_of_vacated (h : Row.Vacated chain.slots) : chain.isEvacuated = true := by
  unfold isEvacuated
  cases row : chain.slots with
  | nil => exact absurd row chain.slots_ne_nil
  | cons slot rest => exact (h slot (row ▸ .head _)).1

theorem isEvacuated_of_tidy (h : Row.Tidy exact chain.slots) : chain.isEvacuated = false := by
  unfold isEvacuated
  cases row : chain.slots with
  | nil => rfl
  | cons slot rest => exact h.isEvacuated_tag (row ▸ .head _)

theorem slots_settleAt (offset : Nat) : (chain.settleAt offset).slots =
    if (chain.slots[offset + 1]?).all (·.tag = .emptyRest) then
      settle (· = .emptyOne) (chain.slots.take (offset + 1)) ++ chain.slots.drop (offset + 1)
    else chain.slots := by
  unfold settleAt
  split <;> rfl

@[simp] theorem slots_settleEnd : chain.settleEnd.slots = settle Tag.isEmpty chain.slots :=
  rfl

/-- A removal empties its slot, and settles the row up to there if only the empty rest follows. -/
theorem slots_remove {earlier later : List (Slot K V)} {slot : Slot K V}
    (split : chain.slots = earlier ++ slot :: later) (tidy : Row.Tidy exact later) :
    (∃ n, later = List.replicate n .empty ∧
      ((chain.set earlier.length .hole).settleAt earlier.length).slots =
        settle (· = .emptyOne) (earlier ++ [.hole]) ++ List.replicate n .empty) ∨
    ((chain.set earlier.length .hole).settleAt earlier.length).slots = earlier ++ .hole :: later ∧
      (exact → Row.live later ≠ []) := by
  have written : chain.slots.set earlier.length .hole = earlier ++ .hole :: later := by
    simp [split]
  have next : (earlier ++ Slot.hole :: later)[earlier.length + 1]? = later.head? := by
    rw [List.getElem?_append_right (Nat.le_succ _), Nat.succ_eq_add_one, Nat.add_sub_cancel_left,
      List.getElem?_cons_succ, List.head?_eq_getElem?]
  rw [slots_settleAt, slots_set, written, next]
  cases tidy with
  | spare n =>
    have taken : (earlier ++ Slot.hole :: List.replicate n Slot.empty).take (earlier.length + 1) =
        earlier ++ [.hole] := by simp [List.take_append, List.take_of_length_le]
    have dropped : (earlier ++ Slot.hole :: List.replicate n Slot.empty).drop (earlier.length + 1) =
        List.replicate n Slot.empty := by simp [List.drop_append, List.drop_of_length_le]
    rw [if_pos (by cases n <;> simp [List.replicate_succ, Slot.empty]), taken, dropped]
    exact .inl ⟨n, rfl, rfl⟩
  | full isFull _ =>
    obtain ⟨_, _, _, rfl⟩ := isFull
    rw [if_neg (by simp [Slot.full])]
    exact .inr ⟨rfl, fun _ => by simp⟩
  | hole _ needed =>
    rw [if_neg (by simp [Slot.hole])]
    exact .inr ⟨rfl, fun ex => by simpa using needed ex⟩

/-- A removal keeps a chain tidy: where nothing comes after the emptied slot, the holes before it
become part of the empty rest. -/
theorem tidy_settleAt {i : Nat} {slot : Slot K V} (h : Row.Tidy exact chain.slots)
    (found : chain.slots[i]? = some slot) (full : slot.IsFull) :
    Row.Tidy exact ((chain.set i .hole).settleAt i).slots := by
  obtain ⟨earlier, later, rfl, split, _⟩ := Row.eq_append_of_getElem? found
  rw [split] at h
  rcases slots_remove split h.after with ⟨n, rfl, eq⟩ | ⟨eq, needed⟩
  · rw [eq]
    refine (h.up_to_hole full).settle (by simp) (by simp) (fun mem => ?_) n
    rcases List.mem_append.mp mem with mem | mem
    · rcases h.before_full full _ mem with isFull | eq
      · exact absurd isFull (Slot.not_isFull_of_isEmpty rfl)
      · cases eq
    · cases List.mem_singleton.mp mem
  · rw [eq]
    exact h.punch full needed

/-- The retagging after a removal hides nothing. -/
theorem live_remove {i : Nat} {slot : Slot K V} (h : Row.Tidy exact chain.slots)
    (found : chain.slots[i]? = some slot) (full : slot.IsFull) :
    ((chain.set i .hole).settleAt i).live = (chain.set i .hole).live := by
  obtain ⟨earlier, later, rfl, split, replaced⟩ := Row.eq_append_of_getElem? found
  rw [split] at h
  unfold live
  rw [slots_set, replaced]
  rcases slots_remove split h.after with ⟨n, rfl, eq⟩ | ⟨eq, _⟩
  · rw [eq, Row.live_append, (h.up_to_hole full).live_settle (by simp), ← Row.live_append,
      List.append_assoc]
    rfl
  · rw [eq]

theorem tidy_settleEnd (h : Row.Tidy False chain.slots) : Row.Tidy exact chain.settleEnd.slots := by
  simpa using (h.settle (p := Tag.isEmpty) (fun _ => rfl) rfl (fun _ => rfl) 0 :
    Row.Tidy exact _)

theorem live_settleEnd (h : Row.Tidy exact chain.slots) : chain.settleEnd.live = chain.live :=
  h.live_settle fun _ => rfl

theorem flatMap_bucket (depth : Nat) :
    (List.range depth).flatMap chain.bucket = chain.slots.take (bucketSize * depth) := by
  induction depth with
  | zero => rfl
  | succ depth ih =>
    rw [List.range_succ, List.flatMap_append, ih, Nat.mul_succ, List.take_add]
    simp [bucket]

/-- A visit that starts amid the buckets misses no slot. -/
theorem rotated_perm (chain : Chain K V) (offset : Nat) :
    (chain.rotated offset).Perm chain.slots := by
  have all : chain.buckets.flatten = chain.slots := by
    rw [buckets, ← List.flatMap_def, flatMap_bucket, depth, ← chain.length_slots, List.take_length]
  rw [rotated, List.flatMap_def, ← all]
  generalize chain.buckets = buckets
  induction buckets with
  | nil => exact .refl []
  | cons bucket buckets ih => exact (rotateLeft_perm bucket offset).append ih

end Chain

end GradualMap
