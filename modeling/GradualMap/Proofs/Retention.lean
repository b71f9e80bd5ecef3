import GradualMap.Proofs.Removal
import GradualMap.Table.Retain

/-!
Retaining. The closure is shown every entry once, in the order of the current array, and what it
answers decides about that entry alone. If it gives up, what it decided until then stays decided.
-/

namespace GradualMap

open GradualMap.Action

variable {K V δ ρ : Type}

/-- Entries shown to the closure in order, what is left of them, and whether it saw them all. -/
inductive Keeps (f : K → V → StateM ρ (V × Except String Bool)) :
    List (Entry K V) → ρ → Except String Unit → List (Entry K V) → ρ → Prop
  | done {own : ρ} : Keeps f [] own (.ok ()) [] own
  | kept {entry : Entry K V} {value : V} {rest later : List (Entry K V)} {own own' own'' : ρ}
      {result : Except String Unit}
      (answer : f entry.key entry.value own = ((value, .ok true), own'))
      (run : Keeps f rest own' result later own'') :
      Keeps f (entry :: rest) own result ({ entry with value } :: later) own''
  | dropped {entry : Entry K V} {value : V} {rest later : List (Entry K V)} {own own' own'' : ρ}
      {result : Except String Unit}
      (answer : f entry.key entry.value own = ((value, .ok false), own'))
      (run : Keeps f rest own' result later own'') :
      Keeps f (entry :: rest) own result later own''
  | raised {entry : Entry K V} {value : V} {rest : List (Entry K V)} {own own' : ρ} {text : String}
      (answer : f entry.key entry.value own = ((value, .error text), own')) :
      Keeps f (entry :: rest) own (.error text) ({ entry with value } :: rest) own'

namespace Keeps

variable {f : K → V → StateM ρ (V × Except String Bool)} {shown kept rest later : List (Entry K V)}
  {own own' own'' : ρ} {result : Except String Unit}

theorem append (first : Keeps f shown own (.ok ()) kept own')
    (second : Keeps f rest own' result later own'') :
    Keeps f (shown ++ rest) own result (kept ++ later) own'' := by
  generalize whole : Except.ok () = outcome at first
  induction first with
  | done => exact second
  | kept answer _ ih => exact .kept answer (ih second whole)
  | dropped answer _ ih => exact .dropped answer (ih second whole)
  | raised _ => cases whole

theorem append_error {text : String} (first : Keeps f shown own (.error text) kept own')
    (rest : List (Entry K V)) : Keeps f (shown ++ rest) own (.error text) (kept ++ rest) own' := by
  generalize stopped : Except.error text = outcome at first
  induction first with
  | done => cases stopped
  | kept answer _ ih => exact .kept answer (ih stopped)
  | dropped answer _ ih => exact .dropped answer (ih stopped)
  | raised answer => exact .raised answer

/-- Keys are left out, and none is changed. -/
theorem keys (h : Keeps f shown own result kept own') :
    (kept.map (·.key)).Sublist (shown.map (·.key)) := by
  induction h with
  | done => exact .refl _
  | kept _ _ ih => exact ih.cons_cons _
  | dropped _ _ ih => exact ih.cons _
  | raised _ => exact .refl _

/-- What a raise leaves is told by the entries seen before it. -/
theorem raised_iff {text : String} : Keeps f shown own (.error text) kept own' ↔
    ∃ seen entry unseen value left between, shown = seen ++ entry :: unseen ∧
      Keeps f seen own (.ok ()) left between ∧
      f entry.key entry.value between = ((value, .error text), own') ∧
      kept = left ++ { entry with value } :: unseen := by
  constructor
  · intro run
    generalize stopped : Except.error text = outcome at run
    induction run with
    | done => cases stopped
    | @kept entry value _ _ _ _ _ _ answer _ ih =>
      obtain ⟨seen, last, unseen, value', left, between, rfl, run, raised, rfl⟩ := ih stopped
      exact ⟨entry :: seen, last, unseen, value', { entry with value } :: left, between, rfl,
        .kept answer run, raised, rfl⟩
    | @dropped entry _ _ _ _ _ _ _ answer _ ih =>
      obtain ⟨seen, last, unseen, value', left, between, rfl, run, raised, rfl⟩ := ih stopped
      exact ⟨entry :: seen, last, unseen, value', left, between, rfl, .dropped answer run, raised,
        rfl⟩
    | @raised entry value rest own _ _ answer =>
      cases stopped
      exact ⟨[], entry, rest, value, [], own, rfl, .done, answer, rfl⟩
  · rintro ⟨seen, entry, unseen, value, left, between, rfl, run, raised, rfl⟩
    exact run.append (.raised raised)

theorem ne_nil {text : String} (h : Keeps f shown own (.error text) kept own') : kept ≠ [] := by
  obtain ⟨_, _, _, _, _, _, _, _, _, rfl⟩ := raised_iff.mp h
  exact List.append_ne_nil_of_right_ne_nil _ (List.cons_ne_nil _ _)

theorem length_le (h : Keeps f shown own result kept own') : kept.length ≤ shown.length := by
  simpa using h.keys.length_le

end Keeps

/-- The same rules, with no word on where holes may be left. -/
def Rules.loose (rules : Rules K) : Rules K :=
  { rules with exact := False }

theorem Chain.Sound.loose {rules : Rules K} {seed : UInt64} {size index : Nat} {chain : Chain K V}
    (sound : chain.Sound rules seed size index) : chain.Sound rules.loose seed size index :=
  ⟨sound.tidy.mono False.elim, sound.placed⟩

namespace Table

variable {rules : Rules K} {scheme : KeyScheme K δ} {table : Table K V} {env : Env δ} {own : ρ}
  {index offset : Nat} {top : UInt8} {entry : Entry K V}

/-- One entry apart from the others, whatever its slot is overwritten with. -/
theorem entries_setSlot (bound : index < table.current.size)
    (slot : (table.current.chainAt index).slots[offset]? = some (.full top entry)) :
    ∃ rest, table.entries.Perm (entry :: rest) ∧ ∀ new : Slot K V,
      (entries { table with current := table.current.setSlot index offset new }).Perm
        (new.live?.toList.map Prod.snd ++ rest) := by
  obtain ⟨chainRest, before, after⟩ := Row.live_set slot
  have split (new : Slot K V) : ∃ rest, table.entries.Perm (entry :: rest) ∧
      (entries { table with current := table.current.setSlot index offset new }).Perm
        (new.live?.toList.map Prod.snd ++ rest) := by
    have written := BucketArray.chainAt_setSlot bound offset new
    have here := (written index).trans (if_pos rfl)
    obtain ⟨rest, all, all'⟩ := entries_write_current bound
      (BucketArray.size_setSlot table.current index offset new)
      fun i ne => (written i).trans (if_neg ne)
    rw [here] at all'
    have was : (table.current.chainAt index).entries.Perm (entry :: chainRest.map Prod.snd) :=
      before.map Prod.snd
    have is : ((table.current.chainAt index).set offset new).entries.Perm
        (new.live?.toList.map Prod.snd ++ chainRest.map Prod.snd) := by
      rw [← List.map_append]
      exact (after new).map Prod.snd
    refine ⟨chainRest.map Prod.snd ++ rest, all.trans (was.append_right rest), ?_⟩
    rw [← List.append_assoc]
    exact all'.trans (is.append_right rest)
  obtain ⟨rest, all, _⟩ := split .hole
  refine ⟨rest, all, fun new => ?_⟩
  obtain ⟨rest', all', new'⟩ := split new
  have same : rest'.Perm rest := (all'.symm.trans all).cons_inv
  exact new'.trans (same.append_left _)

/-- A table in the middle of retaining chain `index`: no resize is in flight, the rest of the chain
is still to be shown, and what is settled about the other entries stands in `others`. -/
structure Retaining (rules : Rules K) (index : Nat) (rest : List (Slot K V))
    (others : List (Entry K V)) (table : Table K V) : Prop where
  bound : index < table.current.size
  chain : (table.current.chainAt index).Sound rules.loose table.seed table.current.size index
  count : table.count = table.entries.length
  entries : table.entries.Perm ((Row.live rest).map Prod.snd ++ others)

/-- What retaining one chain leaves as it was. -/
structure Apart (index : Nat) (before after : Table K V) : Prop where
  exponent : after.exponent = before.exponent
  overflowCount : after.overflowCount = before.overflowCount
  seed : after.seed = before.seed
  resize : after.resize = before.resize
  size : after.current.size = before.current.size
  others : ∀ i, i ≠ index → after.current.chainAt i = before.current.chainAt i

theorem Apart.refl (table : Table K V) : Apart index table table :=
  ⟨rfl, rfl, rfl, rfl, rfl, fun _ _ => rfl⟩

theorem Apart.trans {before between after : Table K V} (first : Apart index before between)
    (second : Apart index between after) : Apart index before after where
  exponent := second.exponent.trans first.exponent
  overflowCount := second.overflowCount.trans first.overflowCount
  seed := second.seed.trans first.seed
  resize := second.resize.trans first.resize
  size := second.size.trans first.size
  others i ne := (second.others i ne).trans (first.others i ne)

theorem apart_setSlot (bound : index < table.current.size) (offset : Nat) (slot : Slot K V)
    (count : Nat) :
    Apart index table { table with current := table.current.setSlot index offset slot, count } where
  exponent := rfl
  overflowCount := rfl
  seed := rfl
  resize := rfl
  size := BucketArray.size_setSlot ..
  others i ne := (BucketArray.chainAt_setSlot bound offset slot i).trans (if_neg ne)

theorem Retaining.perm {rest : List (Slot K V)} {others others' : List (Entry K V)}
    (h : Retaining rules index rest others table) (same : others.Perm others') :
    Retaining rules index rest others' table :=
  { h with entries := h.entries.trans (same.append_left _) }

theorem Retaining.stop {rest : List (Slot K V)} {others : List (Entry K V)}
    (h : Retaining rules index rest others table) :
    Retaining rules index [] ((Row.live rest).map Prod.snd ++ others) table :=
  { h with entries := h.entries }

/-- The value of the entry at hand is written. -/
theorem Retaining.write {rest : List (Slot K V)} {others : List (Entry K V)}
    (h : Retaining rules index (.full top entry :: rest) others table)
    (slot : (table.current.chainAt index).slots[offset]? = some (.full top entry)) (value : V) :
    Retaining rules index rest ({ entry with value } :: others)
      { table with
        current := table.current.setSlot index offset (.full top { entry with value }) } := by
  obtain ⟨apart, all, writes⟩ := entries_setSlot h.bound slot
  have rest_perm : apart.Perm ((Row.live rest).map Prod.snd ++ others) :=
    (all.symm.trans h.entries).cons_inv
  have written := writes (.full top { entry with value })
  have chain := BucketArray.chainAt_setSlot h.bound offset (.full top { entry with value }) index
  rw [if_pos rfl] at chain
  refine ⟨by simpa using h.bound, ?_, ?_, ?_⟩
  · simp only [chain, BucketArray.size_setSlot]
    exact (h.chain.set_entry { entry with value } slot id).1
  · exact h.count.trans (all.length_eq.trans written.length_eq.symm)
  · exact written.trans ((rest_perm.cons _).trans List.perm_middle.symm)

/-- The entry at hand is dropped. -/
theorem Retaining.drop {rest : List (Slot K V)} {others : List (Entry K V)}
    (h : Retaining rules index rest (entry :: others) table)
    (slot : (table.current.chainAt index).slots[offset]? = some (.full top entry)) :
    table.count ≠ 0 ∧ Retaining rules index rest others
      { table with
        current := table.current.setSlot index offset .hole
        count := table.count - 1 } := by
  obtain ⟨apart, all, writes⟩ := entries_setSlot h.bound slot
  have rest_perm : apart.Perm ((Row.live rest).map Prod.snd ++ others) :=
    (all.symm.trans (h.entries.trans List.perm_middle)).cons_inv
  have count := h.count.trans all.length_eq
  have chain := BucketArray.chainAt_setSlot h.bound offset (.hole : Slot K V) index
  rw [if_pos rfl] at chain
  refine ⟨by simp [count], by simpa using h.bound, ?_, ?_, (writes .hole).trans rest_perm⟩
  · simp only [chain, BucketArray.size_setSlot]
    obtain ⟨earlier, later, _, row, replaced⟩ := Row.eq_append_of_getElem? slot
    obtain ⟨live, before, after⟩ := Row.live_set slot
    have tidy := h.chain.tidy
    have full := tidy.minTopHash_le (before.mem_iff.mpr (.head _))
    refine ⟨?_, fun item mem => h.chain.placed item ?_⟩
    · rw [Chain.slots_set, replaced]
      exact (row ▸ tidy).punch ⟨top, entry, full, rfl⟩ False.elim
    · exact before.mem_iff.mpr (.tail _ ((after .hole).mem_iff.mp mem))
  · simp only [count, List.length_cons, Nat.add_sub_cancel]
    exact (writes .hole).length_eq.symm

/-- The slot at hand and those still to be shown. -/
theorem slot_of_drop {slots rest : List (Slot K V)} {slot : Slot K V}
    (drop : slots.drop offset = slot :: rest) :
    slots[offset]? = some slot ∧ slots.drop (offset + 1) = rest := by
  constructor
  · rw [← List.head?_drop, drop]
    rfl
  · rw [← List.tail_drop, drop]
    rfl

/-- Writing the slot at hand leaves those still to be shown. -/
theorem drop_setSlot (bound : index < table.current.size) {slot : Slot K V}
    {rest : List (Slot K V)} (drop : (table.current.chainAt index).slots.drop offset = slot :: rest)
    (new : Slot K V) :
    ((table.current.setSlot index offset new).chainAt index).slots.drop offset = new :: rest := by
  obtain ⟨here, later⟩ := slot_of_drop drop
  obtain ⟨inside, -⟩ := List.getElem?_eq_some_iff.mp here
  have written : ((table.current.setSlot index offset new).chainAt index).slots =
      (table.current.chainAt index).slots.set offset new := by
    rw [BucketArray.chainAt_setSlot bound, if_pos rfl, Chain.slots_set]
  rw [written, List.drop_eq_getElem_cons (by simpa using inside), List.getElem_set_self,
    List.drop_set_of_lt (Nat.lt_succ_self _), later]

theorem retainSlots_ends (f : K → V → StateM ρ (V × Except String Bool)) (rest : List (Slot K V)) :
    ∀ {table : Table K V} {env : Env δ} {own : ρ} {offset : Nat} {others : List (Entry K V)},
      Retaining rules index rest others table →
      (table.current.chainAt index).slots.drop offset = rest →
      Ends (retainSlots f index rest offset) ((table, env), own)
        (fun _ s => ∃ kept own', Keeps f ((Row.live rest).map Prod.snd) own (.ok ()) kept own' ∧
          s.2 = own' ∧ Apart index table s.1.1 ∧ Retaining rules index [] (kept ++ others) s.1.1)
        (fun failure s => ∃ text kept own',
          Keeps f ((Row.live rest).map Prod.snd) own (.error text) kept own' ∧
          failure = .abort (.raised text) ∧ s.2 = own' ∧ Apart index table s.1.1 ∧
          Retaining rules index [] (kept ++ others) s.1.1) := by
  induction rest with
  | nil =>
    intro table env own offset others retaining _
    exact ⟨[], own, .done, rfl, .refl table, retaining⟩
  | cons slot rest ih =>
    intro table env own offset others retaining drop
    obtain ⟨here, later⟩ := slot_of_drop drop
    unfold retainSlots
    cases live : slot.live? with
    | none =>
      have same : Row.live (slot :: rest) = Row.live rest := by
        rw [Row.live_cons, live]
        rfl
      rw [same]
      exact ih ⟨retaining.bound, retaining.chain, retaining.count, same ▸ retaining.entries⟩ later
    | some item =>
      obtain ⟨top, entry⟩ := item
      obtain rfl := Slot.live?_eq_some.mp live
      have shown := retaining.write here
      have writes (value : V) := apart_setSlot retaining.bound offset
        (.full top { entry with value }) table.count
      simp only
      rw [ends_bind, ends_second, ends_lift, ends_bind, ends_first, ends_setCurrent,
        Row.live_full_cons, List.map_cons]
      generalize answered : f entry.key entry.value own = answer
      obtain ⟨⟨value, verdict⟩, own₁⟩ := answer
      have written := drop_setSlot retaining.bound drop (.full top { entry with value })
      rcases verdict with text | _ | _
      · exact ⟨text, _, _, Keeps.raised answered, rfl, rfl, writes value,
          (shown value).stop.perm List.perm_middle⟩
      · obtain ⟨filled, dropped⟩ := (shown value).drop (slot_of_drop written).1
        have emptied := apart_setSlot (shown value).bound offset .hole (table.count - 1)
        simp only
        rw [ends_bind, ends_first, ends_setCurrent, ends_bind, ends_first]
        refine (ends_countDown ?_).mpr ?_
        · exact filled
        have vacated := drop_setSlot (shown value).bound written .hole
        apply (ih dropped (slot_of_drop vacated).2).mono
        · rintro _ s ⟨kept, own₂, run, last, apart, done⟩
          exact ⟨kept, own₂, Keeps.dropped answered run, last,
            ((writes value).trans emptied).trans apart, done⟩
        · rintro failure s ⟨text, kept, own₂, run, raised, last, apart, done⟩
          exact ⟨text, kept, own₂, Keeps.dropped answered run, raised, last,
            ((writes value).trans emptied).trans apart, done⟩
      · apply (ih (shown value) (slot_of_drop written).2).mono
        · rintro _ s ⟨kept, own₂, run, last, apart, done⟩
          exact ⟨_, own₂, Keeps.kept answered run, last, (writes value).trans apart,
            done.perm List.perm_middle⟩
        · rintro failure s ⟨text, kept, own₂, run, raised, last, apart, done⟩
          exact ⟨text, _, own₂, Keeps.kept answered run, raised, last,
            (writes value).trans apart, done.perm List.perm_middle⟩

theorem Apart.eq {before after : Table K V} (h : Apart index before after) :
    after = { before with current := after.current, count := after.count } := by
  obtain ⟨count, exponent, overflowCount, seed, current, resize⟩ := after
  obtain ⟨exponent', overflowCount', seed', resize', _, _⟩ := h
  simp only at exponent' overflowCount' seed' resize'
  rw [exponent', overflowCount', seed', resize']

theorem Sound.loose (sound : table.Sound rules) : table.Sound rules.loose where
  count := sound.count
  allocated := sound.allocated
  chains i bound := (sound.chains i bound).loose
  resizing resize growing := by
    have inUse := sound.resizing resize growing
    refine ⟨inUse.size, inUse.cursor_lt, inUse.passed, fun old bound => ?_⟩
    rcases inUse.chains old bound with vacated | waiting
    · exact .inl vacated
    · exact .inr ⟨waiting.sound.loose, waiting.low, waiting.high⟩

/-- The table where retaining stopped amid a chain. -/
theorem Retaining.sound {before : Table K V} {others : List (Entry K V)}
    (sound : before.Sound rules) (idle : before.resize = none) (apart : Apart index before table)
    (h : Retaining rules index [] others table) : table.Sound rules.loose := by
  have chain := h.chain
  have count := h.count
  rw [apart.size, apart.seed] at chain
  rw [apart.eq] at count ⊢
  exact sound.loose.write_current (settled_of_idle idle index) apart.size apart.others chain _ _
    count

/-- The table once the chain is retained and its end retagged. -/
theorem Retaining.settled {before : Table K V} {others : List (Entry K V)}
    (sound : before.Sound rules) (idle : before.resize = none) (apart : Apart index before table)
    (h : Retaining rules index [] others table) :
    Sound rules { table with current := table.current.modify index Chain.settleEnd } ∧
      Apart index before { table with current := table.current.modify index Chain.settleEnd } ∧
      (Table.entries { table with
        current := table.current.modify index Chain.settleEnd }).Perm others := by
  have size : (table.current.modify index Chain.settleEnd).size = before.current.size := by
    simpa using apart.size
  have modified := BucketArray.chainAt_modify h.bound Chain.settleEnd
  have here := (modified index).trans (if_pos rfl)
  have rest (i : Nat) (ne : i ≠ index) := (modified i).trans (if_neg ne)
  have others' (i : Nat) (ne : i ≠ index) := (rest i ne).trans (apart.others i ne)
  have still : ((table.current.modify index Chain.settleEnd).chainAt index).entries =
      (table.current.chainAt index).entries := by
    rw [here, Chain.entries, Chain.live_settleEnd h.chain.tidy]
    rfl
  obtain ⟨away, all, all'⟩ := entries_write_current h.bound (BucketArray.size_modify ..) rest
  rw [still] at all'
  have same := all'.trans all.symm
  have apart' : Apart index before
      { table with current := table.current.modify index Chain.settleEnd } :=
    { apart with size, others := others' }
  refine ⟨?_, apart', same.trans h.entries⟩
  have chain : (table.current.modify index Chain.settleEnd |>.chainAt index).Sound rules
      before.seed before.current.size index := by
    rw [here, ← apart.size, ← apart.seed]
    refine ⟨Chain.tidy_settleEnd h.chain.tidy, fun item mem => h.chain.placed item ?_⟩
    rwa [Chain.live_settleEnd h.chain.tidy] at mem
  have count := h.count.trans same.length_eq.symm
  rw [apart'.eq] at count ⊢
  exact sound.write_current (settled_of_idle idle index) size others' chain _ _ count

theorem retainChain_ends (f : K → V → StateM ρ (V × Except String Bool))
    (sound : table.Sound rules) (idle : table.resize = none) (bound : index < table.current.size)
    {others : List (Entry K V)}
    (split : table.entries.Perm ((table.current.chainAt index).entries ++ others)) :
    Ends (retainChain f index) ((table, env), own)
      (fun _ s => ∃ kept own', Keeps f (table.current.chainAt index).entries own (.ok ()) kept
          own' ∧ s.2 = own' ∧ s.1.1.Sound rules ∧ Apart index table s.1.1 ∧
        s.1.1.entries.Perm (kept ++ others))
      (fun failure s => ∃ text kept own',
        Keeps f (table.current.chainAt index).entries own (.error text)
          kept own' ∧ failure = .abort (.raised text) ∧ s.2 = own' ∧
        s.1.1.Sound rules.loose ∧ Apart index table s.1.1 ∧
        s.1.1.entries.Perm (kept ++ others)) := by
  unfold retainChain
  rw [ends_bind, ends_first, ends_read, ends_bind, ends_check_ok (BucketArray.fetch_eq bound),
    ends_bind]
  have retaining : Retaining rules index (table.current.chainAt index).slots others table :=
    ⟨bound, (sound.chains index bound).loose, sound.count, split⟩
  apply (retainSlots_ends f _ retaining rfl).mono
  · rintro _ ⟨⟨after, env⟩, own'⟩ ⟨kept, _, run, rfl, apart, done⟩
    rw [ends_first, ends_modify]
    obtain ⟨sound', apart', entries⟩ := done.settled sound idle apart
    exact ⟨kept, _, run, rfl, sound', apart', entries⟩
  · rintro failure ⟨⟨after, env⟩, own'⟩ ⟨text, kept, _, run, raised, rfl, apart, stopped⟩
    exact ⟨text, kept, _, run, raised, rfl, stopped.sound sound idle apart, apart,
      stopped.entries⟩

/-- The chains are retained one after the other; one does not touch another. -/
theorem retainChains_ends (f : K → V → StateM ρ (V × Except String Bool)) (indices : List Nat) :
    ∀ {table : Table K V} {env : Env δ} {own : ρ} (others : List (Entry K V)),
      table.Sound rules → table.resize = none → (∀ i ∈ indices, i < table.current.size) →
      indices.Nodup →
      table.entries.Perm (indices.flatMap (fun i => (table.current.chainAt i).entries) ++ others) →
      Ends (indices.forM (retainChain f)) ((table, env), own)
        (fun _ s => ∃ kept, Keeps f (indices.flatMap fun i => (table.current.chainAt i).entries) own
            (.ok ()) kept s.2 ∧ s.1.1.Sound rules ∧
          s.1.1.exponent = table.exponent ∧ s.1.1.seed = table.seed ∧ s.1.1.resize = none ∧
          s.1.1.entries.Perm (kept ++ others))
        (fun failure s => ∃ text kept, Keeps f
            (indices.flatMap fun i => (table.current.chainAt i).entries) own (.error text) kept s.2 ∧
          failure = .abort (.raised text) ∧ s.1.1.Sound rules.loose ∧
          s.1.1.exponent = table.exponent ∧ s.1.1.seed = table.seed ∧ s.1.1.resize = none ∧
          s.1.1.entries.Perm (kept ++ others)) := by
  induction indices with
  | nil =>
    intro table env own others sound idle _ _ split
    exact ⟨[], .done, sound, rfl, rfl, idle, split⟩
  | cons index indices ih =>
    intro table env own others sound idle bounds nodup split
    rw [List.flatMap_cons, List.append_assoc] at split
    change Ends (do retainChain f index; indices.forM (retainChain f)) _ _ _
    rw [ends_bind]
    apply (retainChain_ends f sound idle (bounds index (.head _)) split).mono
    · rintro _ ⟨⟨between, env⟩, own'⟩ ⟨kept, _, run, rfl, sound', apart, entries⟩
      have still : indices.flatMap (fun i => (between.current.chainAt i).entries) =
          indices.flatMap (fun i => (table.current.chainAt i).entries) := by
        rw [List.flatMap_def, List.flatMap_def]
        refine congrArg _ (List.map_congr_left fun i mem => ?_)
        rw [apart.others i fun same => (List.nodup_cons.mp nodup).1 (same ▸ mem)]
      refine (ih (kept ++ others) sound' (apart.resize.trans idle)
        (fun i mem => apart.size ▸ bounds i (.tail _ mem)) (List.nodup_cons.mp nodup).2 ?_).mono
          ?_ ?_
      · rw [still]
        exact entries.trans (List.perm_append_comm_assoc _ _ _)
      · rintro _ s ⟨later, run', sound'', exponent, seed, idle', entries'⟩
        rw [still] at run'
        refine ⟨kept ++ later, run.append run', sound'', exponent.trans apart.exponent,
          seed.trans apart.seed, idle', entries'.trans ?_⟩
        rw [List.append_assoc]
        exact List.perm_append_comm_assoc _ _ _
      · rintro failure s ⟨text, later, run', raised, sound'', exponent, seed, idle', entries'⟩
        rw [still] at run'
        refine ⟨text, kept ++ later, run.append run', raised, sound'',
          exponent.trans apart.exponent, seed.trans apart.seed, idle', entries'.trans ?_⟩
        rw [List.append_assoc]
        exact List.perm_append_comm_assoc _ _ _
    · rintro failure s ⟨text, kept, _, run, raised, rfl, sound', apart, entries⟩
      refine ⟨text, _, run.append_error _, raised, sound', apart.exponent, apart.seed,
        apart.resize.trans idle, ?_⟩
      rw [List.append_assoc]
      exact entries

/-- What retaining does once no resize is in flight. -/
def retainSettled (f : K → V → StateM ρ (V × Except String Bool)) :
    Action ((Table K V × Env δ) × ρ) Unit := do
  let size := (← first read).current.size
  (List.range size).forM (retainChain f)
  if (← first read).count = 0 then
    first reseed

theorem retain_eq (scheme : KeyScheme K δ) (f : K → V → StateM ρ (V × Except String Bool)) :
    retain scheme f = (do
      unless (← first read).count = 0 do
        first (finishGrowth scheme)
        retainSettled f) :=
  rfl

/-- A table of which `left` is left. It has drawn a new seed if that is nothing, and not even looked
at the random stream if it is not. -/
structure Retained (rules : Rules K) (left : List (Entry K V)) (before after : Table K V × Env δ) :
    Prop where
  sound : after.1.Sound rules
  exponent : after.1.exponent = before.1.exponent
  idle : after.1.resize = none
  entries : after.1.entries.Perm left
  reseeded : left = [] → after.1.seed = before.2.keys.draws.next.1 ∧
    after.2 = { before.2 with
      keys := { before.2.keys with draws := before.2.keys.draws.next.2 } }
  standing : left ≠ [] → after.1.seed = before.1.seed ∧ after.2 = before.2

theorem Retained.snug {before after : Table K V × Env δ} {left : List (Entry K V)}
    {table : Table K V} (retained : Retained rules left before after) (snug : table.Snug)
    (exponent : before.1.exponent = table.exponent) (fewer : left.length ≤ table.count) :
    after.1.Snug := by
  refine snug.mono (retained.exponent.trans exponent) (fun _ => retained.idle) ?_
  rwa [retained.sound.count, retained.entries.length_eq]

/-- Every entry is shown to the closure, or as many as until it raises. -/
theorem retainSettled_ends (f : K → V → StateM ρ (V × Except String Bool))
    (sound : table.Sound rules) (idle : table.resize = none) (env : Env δ) (own : ρ) :
    Ends (retainSettled f) ((table, env), own)
      (fun _ s => ∃ left, Keeps f table.current.entries own (.ok ()) left s.2 ∧
        Retained rules left (table, env) s.1)
      (fun failure s => ∃ left text, Keeps f table.current.entries own (.error text) left s.2 ∧
        failure = .abort (.raised text) ∧ Retained rules.loose left (table, env) s.1) := by
  unfold retainSettled
  rw [ends_bind, ends_first, ends_read, ends_bind]
  refine ((retainChains_ends f (List.range table.current.size) [] sound idle
    (fun i mem => List.mem_range.mp mem) List.nodup_range
    (by rw [entries_of_idle idle, List.append_nil]; rfl)).leaving (leaves_retainChains _)).mono
      ?_ ?_
  · rintro _ ⟨⟨after, env'⟩, own'⟩
      ⟨⟨left, run, sound', exponent, seed, idle', entries⟩, unasked⟩
    obtain rfl : env' = env := congrArg (·.1) unasked
    rw [List.append_nil] at entries
    have emptied : after.count = 0 ↔ left = [] := by
      rw [sound'.entries_eq_nil, ← List.length_eq_zero_iff, entries.length_eq,
        List.length_eq_zero_iff]
    rw [ends_bind, ends_first, ends_read]
    split
    · rename_i empty
      have none := sound'.entries_eq_nil.mp empty
      rw [ends_first, ends_reseed]
      exact ⟨left, run, sound'.reseeded none _, exponent, idle', entries, fun _ => ⟨rfl, rfl⟩,
        fun some => absurd (emptied.mp empty) some⟩
    · rename_i filled
      exact ⟨left, run, sound', exponent, idle', entries,
        fun none => absurd (emptied.mpr none) filled, fun _ => ⟨seed, rfl⟩⟩
  · rintro failure ⟨⟨after, env'⟩, own'⟩
      ⟨⟨text, left, run, raised, sound', exponent, seed, idle', entries⟩, unasked⟩
    obtain rfl : env' = env := congrArg (·.1) unasked
    rw [List.append_nil] at entries
    exact ⟨left, text, run, raised, sound', exponent, idle', entries,
      fun none => absurd none run.ne_nil, fun _ => ⟨seed, rfl⟩⟩

/-- Every entry is shown to the closure, or as many as until it raises, unless the scheme stalls on
an entry that is to be moved first. -/
theorem retain_ends_of_held {stalls : Failure → Prop} (held : rules.HeldBy scheme stalls)
    (f : K → V → StateM ρ (V × Except String Bool)) (sound : table.Sound rules) (snug : Snug table)
    (env : Env δ) (own : ρ) :
    Ends (retain scheme f) ((table, env), own)
      (fun _ s => s.1.1.Sound rules ∧ Snug s.1.1 ∧ s.1.1.exponent = table.exponent ∧
        (s.1.1.seed = table.seed ∨ table.entries ≠ [] ∧ s.1.1.entries = []) ∧ ∃ order left,
          order.Perm table.entries ∧ Keeps f order own (.ok ()) left s.2 ∧ s.1.1.entries.Perm left)
      (fun failure s => ¬ stalls failure → s.1.1.Sound rules.loose ∧ Snug s.1.1 ∧
        s.1.1.exponent = table.exponent ∧ s.1.1.seed = table.seed ∧ ∃ order left text,
          order.Perm table.entries ∧ Keeps f order own (.error text) left s.2 ∧
          failure = .abort (.raised text) ∧ s.1.1.entries.Perm left) := by
  rw [retain_eq, ends_bind, ends_first, ends_read]
  split
  · rename_i empty
    have none := sound.entries_eq_nil.mp empty
    exact ⟨sound, snug, rfl, .inl rfl, [], [], .of_eq none.symm, .done, .of_eq none⟩
  · rename_i filled
    have stored : table.entries ≠ [] := fun none => filled (sound.entries_eq_nil.mpr none)
    rw [ends_bind, ends_first]
    refine (finishGrowth_ends held sound env).mono ?_
      fun failure s stalled calm => absurd stalled calm
    rintro _ ⟨between, env⟩ ⟨shifts, idle⟩
    obtain ⟨sound', steady⟩ := shifts.sound held sound
    have order : between.current.entries.Perm table.entries :=
      entries_of_idle idle ▸ steady.entries
    have fewer {left : List (Entry K V)} {own' : ρ} {result : Except String Unit}
        (run : Keeps f between.current.entries own result left own') :
        left.length ≤ table.count := by
      rw [sound.count, ← order.length_eq]
      exact run.length_le
    refine (retainSettled_ends f sound' idle env own).mono ?_ ?_
    · rintro _ s ⟨left, run, retained⟩
      refine ⟨retained.sound, retained.snug snug steady.exponent (fewer run),
        retained.exponent.trans steady.exponent, ?_, _, left, order, run, retained.entries⟩
      by_cases none : left = []
      · exact .inr ⟨stored, (none ▸ retained.entries).eq_nil⟩
      · exact .inl ((retained.standing none).1.trans steady.seed)
    · rintro failure s ⟨left, text, run, raised, retained⟩ _
      exact ⟨retained.sound, retained.snug snug steady.exponent (fewer run),
        retained.exponent.trans steady.exponent,
        (retained.standing run.ne_nil).1.trans steady.seed, _, left, text, order, run, raised,
        retained.entries⟩

end Table

end GradualMap
