import GradualMap.Proofs.Passage

/-!
The books of a resize. Which chains were evacuated is written in their tags alone, out of order, and
the cursor only says how far all of them were. Every step keeps these books; a resize starts where
none is in flight, and it ends once nothing is left to be moved.
-/

namespace GradualMap

variable {K V δ ρ : Type}

/-- The event tells of a resize that starts, ends or is called off. -/
def Event.marks : Event → Bool
  | .growthStarted .. | .growthComplete .. | .cleared _ => true
  | _ => false

/-- What a slot shows without its value. -/
def Slot.face (slot : Slot K V) : Tag × Option K :=
  (slot.tag, slot.entry.map (·.key))

/-- What the old array and the cursor of a resize say, next to the current array. -/
structure Resize.Bookkept (exponent : Nat) (current : BucketArray K V) (resize : Resize K V) :
    Prop where
  size : if resize.sameSize then resize.array.size = bucketCount exponent
    else 0 < exponent ∧ resize.array.size = bucketCount (exponent - 1)
  cursor_lt : resize.cursor < resize.array.size
  passed : ∀ old < resize.cursor, (resize.array.chainAt old).isEvacuated = true
  vacated : ∀ old < resize.array.size, (resize.array.chainAt old).isEvacuated = true →
    ∀ slot ∈ (resize.array.chainAt old).slots, slot.tag.isEvacuated = true ∧ slot.entry = none
  waits : ∀ old < resize.array.size, (resize.array.chainAt old).isEvacuated = false →
    ∀ slot ∈ (resize.array.chainAt old).slots, slot.tag.isEvacuated = false
  /-- The chains that an old chain goes to are new buckets until it is evacuated. -/
  untouched : ∀ old < resize.array.size, (resize.array.chainAt old).isEvacuated = false →
    ∀ index < current.size, index % resize.array.size = old → current.chainAt index = .empty

/-- A resize of which no more than values are written. -/
structure Resize.Alike (before after : Resize K V) : Prop where
  size : after.array.size = before.array.size
  sameSize : after.sameSize = before.sameSize
  cursor : after.cursor = before.cursor
  faces : ∀ old, (after.array.chainAt old).slots.map Slot.face =
    (before.array.chainAt old).slots.map Slot.face

/-- A resize that is taken forward. -/
structure Resize.Onward (before after : Resize K V) : Prop where
  size : after.array.size = before.array.size
  sameSize : after.sameSize = before.sameSize
  cursor_le : before.cursor ≤ after.cursor

theorem Resize.Alike.refl (resize : Resize K V) : resize.Alike resize :=
  ⟨rfl, rfl, rfl, fun _ => rfl⟩

namespace Table

structure Bookkept (table : Table K V) : Prop where
  size : table.current.isAllocated = true → table.current.size = bucketCount table.exponent
  current : ∀ slot ∈ table.current.slots, slot.tag.isEvacuated = false
  resizing : ∀ resize, table.resize = some resize → resize.Bookkept table.exponent table.current

/-- One turn of a table, as far as it concerns resizes, next to the events so far. What else becomes
of the table is left open: that is told by the step or the run that a turn is read off. A table is
cleared only if `clears` holds. -/
inductive Turn (clears : Prop) : Table K V × List Event → Table K V × List Event → Prop
  /-- A resize in flight is left alone, whatever becomes of the current array. -/
  | aside {before after : Table K V} {log : List Event} (news : List Event)
      (quiet : ∀ event ∈ news, event.marks = false)
      (alike : Option.Rel Resize.Alike before.resize after.resize) :
      Turn clears (before, log) (after, news ++ log)
  | onward {before after : Table K V} {log : List Event} {resize resize' : Resize K V}
      (growing : before.resize = some resize) (growing' : after.resize = some resize')
      (onward : resize.Onward resize') : Turn clears (before, log) (after, log)
  | started {before after : Table K V} {log : List Event} {sameSize : Bool}
      (idle : before.resize = none)
      (fresh : after.resize = some { array := before.current, sameSize, cursor := 0 }) :
      Turn clears (before, log) (after, .growthStarted before.exponent after.exponent before.count
        before.overflowCount sameSize :: log)
  | finished {before after : Table K V} {log : List Event} {resize : Resize K V}
      (growing : before.resize = some resize)
      (moved : ∀ slot ∈ resize.array.slots, slot.entry = none) (idle : after.resize = none) :
      Turn clears (before, log)
        (after, .growthComplete after.exponent after.count resize.sameSize :: log)
  /-- What is cleared need not be moved. -/
  | cleared {before after : Table K V} {log : List Event} (called : clears)
      (idle : after.resize = none) :
      Turn clears (before, log) (after, .cleared before.exponent :: log)

/-- Any number of turns, each of which leaves the books in order. -/
abbrev Turns : Table K V × List Event → Table K V × List Event → Prop :=
  Relation.ReflTransGen fun before after => Turn True before after ∧ after.1.Bookkept

variable {rules : Rules K} {scheme : KeyScheme K δ} {clears : Prop} {table : Table K V}
  {before after : Table K V × List Event}

theorem Sound.bookkept (sound : table.Sound rules) : table.Bookkept where
  size allocated := by
    have filled : table.current.size ≠ 0 := by simpa [BucketArray.isAllocated] using allocated
    exact sound.size_eq filled
  current slot mem := by
    obtain ⟨i, bound, mem⟩ := BucketArray.mem_slots.mp mem
    exact (sound.chains i bound).tidy.isEvacuated_tag mem
  resizing resize growing := by
    have inUse := sound.resizing resize growing
    refine ⟨sound.former_size growing, inUse.cursor_lt, ?_, ?_, ?_, ?_⟩
    · exact fun old below => Chain.isEvacuated_of_vacated (inUse.passed old below)
    · exact fun old bound evacuated => (sound.isEvacuated_iff growing bound).mp evacuated
    · intro old bound waits slot mem
      exact (sound.waiting growing bound waits).sound.tidy.isEvacuated_tag mem
    · rintro _ bound waits index inside rfl
      exact inUse.untouched inside (sound.waiting growing bound waits)

theorem Turn.quietly {before after : Table K V} (log : List Event)
    (alike : Option.Rel Resize.Alike before.resize after.resize) :
    Turn clears (before, log) (after, log) :=
  .aside [] (fun _ mem => by cases mem) alike

namespace Turn

variable {before after : Table K V × List Event} {resize resize' : Resize K V}

theorem starts (turn : Turn clears before after) : ∃ news : List Event,
    after.2 = news ++ before.2 ∧ ∀ event ∈ news, event.starts = true → before.1.resize = none := by
  cases turn with
  | aside news quiet alike =>
    refine ⟨news, rfl, fun event mem starts => ?_⟩
    have unmarked := quiet event mem
    cases event with
    | growthStarted => cases unmarked
    | _ => cases starts
  | onward => exact ⟨[], rfl, by simp⟩
  | started idle => exact ⟨[_], rfl, fun _ _ _ => idle⟩
  | finished => exact ⟨[_], rfl, by simp [Event.starts]⟩
  | cleared => exact ⟨[_], rfl, by simp [Event.starts]⟩

theorem stays (turn : Turn clears before after) (growing : before.1.resize = some resize)
    (growing' : after.1.resize = some resize') : resize.Onward resize' := by
  cases turn with
  | aside news quiet alike =>
    rw [growing, growing'] at alike
    cases alike with
    | some alike => exact ⟨alike.size, alike.sameSize, Nat.le_of_eq alike.cursor.symm⟩
  | onward before_eq after_eq onward =>
    cases before_eq.symm.trans growing
    cases after_eq.symm.trans growing'
    exact onward
  | started idle => cases idle.symm.trans growing
  | finished _ _ idle => cases idle.symm.trans growing'
  | cleared _ idle => cases idle.symm.trans growing'

theorem drops (turn : Turn clears before after) (growing : before.1.resize = some resize)
    (idle : after.1.resize = none) :
    (∀ slot ∈ resize.array.slots, slot.entry = none) ∨
      clears ∧ after.2 = .cleared before.1.exponent :: before.2 := by
  cases turn with
  | aside news quiet alike =>
    rw [growing, idle] at alike
    cases alike
  | onward _ growing' => cases growing'.symm.trans idle
  | started none => cases none.symm.trans growing
  | finished growing' moved =>
    cases growing'.symm.trans growing
    exact .inl moved
  | cleared called => exact .inr ⟨called, rfl⟩

end Turn

theorem alike_refl (resize : Option (Resize K V)) : Option.Rel Resize.Alike resize resize := by
  cases resize with
  | none => exact .none
  | some resize => exact .some (.refl resize)

/-- A value may be written to a chain that waits. -/
theorem Holds.alike {pos : Position} {top : UInt8} {entry new : Entry K V}
    (holds : table.Holds pos top entry) (key : new.key = entry.key) :
    Option.Rel Resize.Alike table.resize (table.put pos (.full top new)).resize := by
  obtain ⟨_ | _, index, offset⟩ := pos
  · exact alike_refl _
  · obtain ⟨resize, growing, bound, slot⟩ := holds_former.mp holds
    simp only [put, growing, Option.map_some]
    refine .some ⟨BucketArray.size_setSlot .., rfl, rfl, fun old => ?_⟩
    simp only
    rw [BucketArray.chainAt_setSlot bound]
    split
    · rename_i here
      obtain ⟨earlier, later, _, row, replaced⟩ := Row.eq_append_of_getElem? slot
      rw [here, Chain.slots_set, replaced, row]
      simp [Slot.face, Slot.full, key]
    · rfl

theorem Shift.turn (shift : Shift scheme before after) : Turn clears before after := by
  cases shift with
  | move growing bound waits carried dealt =>
    obtain ⟨array, growing', size, _⟩ := dealt.vacated _ growing
    exact .onward growing growing' ⟨size, rfl, Nat.le_refl _⟩
  | advance growing ahead bound passed =>
    exact .onward growing rfl ⟨rfl, rfl, Nat.le_of_lt ahead⟩
  | finish growing all =>
    refine .finished growing (fun slot mem => ?_) rfl
    obtain ⟨i, bound, mem⟩ := BucketArray.mem_slots.mp mem
    exact (all i bound slot mem).2

theorem Shifts.turns (sound : before.1.Sound Rules.any) (shifts : Shifts scheme before after) :
    Turns before after := by
  induction shifts with
  | refl => exact .refl
  | tail shifts' shift ih =>
    have sound' := (Shifts.sound shifts' (Rules.any_heldBy scheme) sound).1
    have sound'' := (shift.sound (Rules.any_heldBy scheme) sound').1
    exact ih.tail ⟨shift.turn, sound''.bookkept⟩

/-- An insertion takes a resize in flight forward, and then leaves it alone. -/
theorem Room.turn {index offset : Nat} {between : Table K V × List Event}
    (room : Room index before offset between) {filled : Table K V}
    (same : filled.resize = between.1.resize) : Turn clears before (filled, between.2) := by
  cases room with
  | free first =>
    apply Turn.quietly
    rw [same]
    exact alike_refl _
  | linked full overflowCount counted =>
    refine .aside [_] (fun event mem => ?_) ?_
    · obtain rfl := List.mem_singleton.mp mem
      rfl
    · rw [same]
      exact alike_refl _

theorem Step.turns (sound : before.1.Sound Rules.any) (step : Step scheme before after) :
    Turns before after := by
  have books := (step.sound (Rules.any_heldBy scheme) sound).bookkept
  cases step with
  | shift shift => exact .single ⟨shift.turn, books⟩
  | reserve bare => exact .single ⟨.quietly _ (alike_refl _), books⟩
  | start idle allocated small => exact .single ⟨.started idle rfl, books⟩
  | fill allocated worked calm absent room hashes =>
    exact (worked.shifts.turns sound).tail ⟨room.turn rfl, books⟩
  | write holds value => exact .single ⟨.quietly _ (holds.alike rfl), books⟩
  | rekey holds judges hashes value => exact .single ⟨.quietly _ (alike_refl _), books⟩
  | remove holds => exact .single ⟨.quietly _ (alike_refl _), books⟩
  | thin idle thinned =>
    refine .single ⟨.quietly _ ?_, books⟩
    rw [idle, thinned.idle]
    exact .none
  | reseed empty seed told =>
    rcases told with rfl | rfl
    · exact .single ⟨.quietly _ (alike_refl _), books⟩
    · refine .single ⟨.aside [.emptied] ?_ (alike_refl _), books⟩
      simp [Event.marks]
  | clear seed => exact .single ⟨.cleared trivial rfl, books⟩

theorem Path.turns (sound : before.1.Sound Rules.any) (path : Path scheme before after) :
    Turns before after := by
  induction path with
  | refl => exact .refl
  | tail path' step ih =>
    exact ih.trans (step.turns (Path.sound path' (Rules.any_heldBy scheme) sound))

end Table

end GradualMap
