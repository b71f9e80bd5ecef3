import GradualMap.Proofs.Passage

/-!
The evacuation of one chain as a partition. The entries of the chain go to one or two chains in the
order they had; those come out packed, and no other chain changes. Any scheme will do that answers
for the keys of the chain and does not call itself reflexive without cause.
-/

namespace GradualMap

open GradualMap.Action

variable {K V δ : Type}

namespace KeyScheme

/-- The scheme does not call itself reflexive and then judge a key unlike itself. -/
def Sincere (scheme : KeyScheme K δ) : Prop :=
  scheme.traits.reflexive = true → ∀ key answer, scheme.Judges key key answer → answer = true

/-- Whatever state it is in, the scheme hashes the key and compares it with itself. -/
structure Answers (scheme : KeyScheme K δ) (seed : UInt64) (key : K) : Prop where
  hash : ∀ env, ∃ hash, (scheme.hash key seed env).1 = .ok (.ok hash)
  equal : ∀ env, ∃ answer, (scheme.equal key key env).1 = .ok answer

variable {scheme : KeyScheme K δ} {reading : Reading K} {seed : UInt64} {key : K}

theorem Reproduces.sincere (reproduces : scheme.Reproduces reading) : scheme.Sincere := by
  intro reflexive key answer judges
  rw [reproduces.places.self judges]
  exact reproduces.reflexive reflexive key

theorem Reproduces.answers (reproduces : scheme.Reproduces reading)
    (hashed : reading.same key key = true → ∃ hash, reading.code key seed = .ok hash) :
    scheme.Answers seed key where
  hash env := by
    by_cases known : reading.same key key = true
    · obtain ⟨hash, code⟩ := hashed known
      exact ⟨hash, code ▸ reproduces.hash key seed env known⟩
    · exact reproduces.stray key seed env (Bool.eq_false_iff.mpr known)
  equal env := ⟨_, reproduces.self key env⟩

namespace Answers

theorem rehash_yields (answers : scheme.Answers seed key) (env : KeyEnv δ) :
    Yields (scheme.rehash key seed) env fun _ _ => True := by
  obtain ⟨hash, answered⟩ := answers.hash env
  unfold rehash Yields
  rw [ends_bind]
  apply (KeyM.yields_toAction answered).ends
  rintro _ env rfl
  trivial

theorem selfEqual_yields (answers : scheme.Answers seed key) (env : KeyEnv δ) :
    Yields (scheme.selfEqual key) env fun _ _ => True := by
  obtain ⟨answer, answered⟩ := answers.equal env
  unfold selfEqual
  split
  · trivial
  · exact (KeyM.yields_toAction answered).mono fun _ _ _ => trivial

/-- What a scheme takes for granted of a key is what it would judge if it were asked. -/
theorem judges (answers : scheme.Answers seed key) (sincere : scheme.Sincere) {answer : Bool}
    (env : KeyEnv δ)
    (judged : scheme.Judges key key answer ∨ scheme.traits.reflexive = true ∧ answer = true) :
    scheme.Judges key key answer := by
  rcases judged with judged | ⟨reflexive, rfl⟩
  · exact judged
  · obtain ⟨answer, answered⟩ := answers.equal env
    obtain ⟨_, after, run, rfl⟩ := yields_iff.mp (KeyM.yields_toAction answered)
    have judged : scheme.Judges key key _ := ⟨env, congrArg Prod.fst run⟩
    rwa [sincere reflexive key _ judged] at judged

end Answers

end KeyScheme

/-- Where an entry goes and under which hash byte. A resize that packs leaves both as they are. A
doubling goes by one more bit of the hash; where the key is not the same as itself it goes by the
byte instead, and then replaces it. -/
inductive Routing.Sends (routing : Routing) (scheme : KeyScheme K δ) (top : UInt8) (key : K) :
    Half × UInt8 → Prop
  | packs (same : routing.sameSize = true) : Sends routing scheme top key (.low, top)
  | splits {hash : UInt64} (doubles : routing.sameSize = false)
      (known : scheme.Judges key key true) (hashes : scheme.Hashes key routing.seed hash) :
      Sends routing scheme top key
        (if hash.toNat / routing.oldSize % 2 = 1 then .high else .low, top)
  | strays {hash : UInt64} (doubles : routing.sameSize = false)
      (stray : scheme.Judges key key false) (hashes : scheme.Hashes key routing.seed hash) :
      Sends routing scheme top key (if top.toNat % 2 = 1 then .high else .low, topHash hash)

theorem Routing.Sends.uses {routing : Routing} {scheme : KeyScheme K δ} {top : UInt8} {key : K}
    {routed : Half × UInt8} (sends : routing.Sends scheme top key routed) :
    routing.Uses routed.1 := by
  intro high
  cases sends with
  | packs => cases high
  | splits doubles => exact doubles
  | strays doubles => exact doubles

theorem KeyScheme.Answers.route_yields {scheme : KeyScheme K δ} {routing : Routing} {key : K}
    (answers : scheme.Answers routing.seed key) (top : UInt8) (env : KeyEnv δ) :
    Yields (routing.route scheme top key) env fun _ _ => True := by
  unfold Routing.route Yields
  split
  · trivial
  · rw [ends_bind]
    apply (answers.rehash_yields env).ends
    intro hash env' _
    rw [ends_bind]
    apply (answers.selfEqual_yields env').ends
    rintro (_ | _) _ _ <;> trivial

theorem Routing.Routes.sends {routing : Routing} {scheme : KeyScheme K δ} {top : UInt8} {key : K}
    {routed : Half × UInt8} (sincere : scheme.Sincere) (answers : scheme.Answers routing.seed key)
    (routes : routing.Routes scheme top key routed) : routing.Sends scheme top key routed := by
  obtain ⟨env, run⟩ := routes
  have sends : Ends (routing.route scheme top key) env
      (fun routed _ => routing.Sends scheme top key routed) fun _ _ => True := by
    unfold Routing.route
    split
    · rename_i same
      exact .packs same
    · rename_i doubles
      rw [Bool.not_eq_true] at doubles
      rw [ends_bind]
      refine KeyScheme.rehash_ends.mono (fun hash env' hashes => ?_) fun _ _ _ => trivial
      rw [ends_bind]
      refine KeyScheme.selfEqual_ends.mono (fun self _ judged => ?_) fun _ _ _ => trivial
      have judges := answers.judges sincere env' judged
      cases self with
      | true => exact .splits doubles judges hashes
      | false => exact .strays doubles judges hashes
  exact sends.of_ok run

/-- The entry of an old slot as it is sent on. -/
def Routing.Forwards (routing : Routing) (scheme : KeyScheme K δ) (item : UInt8 × Entry K V)
    (moved : Half × UInt8 × Entry K V) : Prop :=
  moved.2.2 = item.2 ∧ routing.Sends scheme item.1 item.2.key (moved.1, moved.2.1)

theorem Routing.forwards_of_carries {scheme : KeyScheme K δ} (sincere : scheme.Sincere)
    {routing : Routing} {items : List (UInt8 × Entry K V)}
    {moved : List (Half × UInt8 × Entry K V)}
    (answers : ∀ item ∈ items, scheme.Answers routing.seed item.2.key)
    (carried : List.Forall₂ (routing.Carries scheme) items moved) :
    List.Forall₂ (routing.Forwards scheme) items moved := by
  induction carried with
  | nil => exact .nil
  | cons carries _ ih =>
    exact .cons ⟨carries.1, carries.2.sends sincere (answers _ (.head _))⟩
      (ih fun item mem => answers item (.tail _ mem))

/-- What remains of a resize whose old array is `array` by now: nothing, once that has no entry
left. -/
inductive Resize.Nears (resize : Resize K V) (array : BucketArray K V) :
    Option (Resize K V) → Prop
  | over (all : ∀ i < array.size, Row.Vacated (array.chainAt i).slots) : Nears resize array none
  | on {cursor : Nat} (further : resize.cursor ≤ cursor) :
      Nears resize array (some { resize with array, cursor })

namespace Table

/-- Old chain `old` of a resize was split: `moved` are its entries in the order they had, with the
half and the hash byte of each, and the old array has become `array`. -/
structure Parted (scheme : KeyScheme K δ) (resize : Resize K V) (old : Nat)
    (moved : List (Half × UInt8 × Entry K V)) (array : BucketArray K V)
    (before after : Table K V) : Prop where
  forwarded : List.Forall₂ ((resize.routing before.seed).Forwards scheme)
    (resize.array.chainAt old).live moved
  filled : ∀ half, (resize.routing before.seed).Uses half →
    (after.current.chainAt ((resize.routing before.seed).target old half)).Packed
      (received half moved)
  turned : Row.Turned (resize.array.chainAt old).slots moved (array.chainAt old).slots
  others : ∀ i, (∀ half, (resize.routing before.seed).Uses half →
    i ≠ (resize.routing before.seed).target old half) →
    after.current.chainAt i = before.current.chainAt i
  othersFormer : ∀ i, i ≠ old → array.chainAt i = resize.array.chainAt i
  size : after.current.size = before.current.size
  sizeFormer : array.size = resize.array.size
  count : after.count = before.count
  exponent : after.exponent = before.exponent
  seed : after.seed = before.seed

variable {scheme : KeyScheme K δ} {table : Table K V} {resize : Resize K V} {old : Nat}

/-- Once its chain is evacuated the cursor may move, and nothing else does. -/
theorem advance_nears {array : BucketArray K V} (scheme : KeyScheme K δ)
    (sound : table.Sound Rules.any) (growing : table.resize = some { resize with array })
    (vacated : Row.Vacated (array.chainAt old).slots) (env : Env δ) :
    Yields (if old = resize.cursor then advanceCursor else pure ()) (table, env) fun _ s =>
      s.1 = { table with resize := s.1.resize } ∧ resize.Nears array s.1.resize := by
  split
  · rename_i here
    apply (advanceCursor_yields scheme sound growing (here ▸ vacated) env).ends
    rintro _ ⟨_, _⟩ ⟨_, ⟨rfl, all⟩ | ⟨cursor, rfl, ahead, _⟩⟩
    · exact ⟨rfl, .over all⟩
    · exact ⟨rfl, .on (Nat.le_of_lt ahead)⟩
  · have nears : resize.Nears array table.resize := by
      rw [growing]
      exact .on (Nat.le_refl _)
    exact ⟨rfl, nears⟩

theorem evacuate_parts (sincere : scheme.Sincere) (sound : table.Sound Rules.any)
    (growing : table.resize = some resize) (bound : old < resize.array.size)
    (waits : (resize.array.chainAt old).isEvacuated = false)
    (answers : ∀ item ∈ (resize.array.chainAt old).live, scheme.Answers table.seed item.2.key)
    (env : Env δ) :
    Yields (evacuate scheme old) (table, env) fun _ s => ∃ moved array,
      Parted scheme resize old moved array table s.1 ∧ resize.Nears array s.1.resize := by
  have dealing := sound.dealing growing bound waits
  have waiting := sound.waiting growing bound waits
  unfold Yields
  rw [ends_evacuate growing bound, if_neg (by simp [waits])]
  -- The slots are gone through with nothing to stop them, and only the cursor is left to move.
  refine (evacuateSlots_ends (Nat.zero_lt_of_lt bound) _ dealing ?_).mono ?_ fun _ _ => id
  · exact fun item mem env => (answers item mem).route_yields item.1 env
  · rintro _ ⟨after, env'⟩ ⟨moved, carried, dealt, ⟨array, turned, growing', slots, rows⟩, _⟩
    obtain ⟨_, growing'', size, others, vacated⟩ := dealt.vacated resize growing
    obtain rfl : array = _ :=
      congrArg Resize.array (Option.some.inj (growing'.symm.trans growing''))
    have parted (resize' : Option (Resize K V)) :
        Parted scheme resize old moved array table { after with resize := resize' } := by
      refine ⟨Routing.forwards_of_carries sincere answers carried, dealt.filled, ?_, dealt.others,
        others, dealt.size, size, dealt.count, dealt.exponent, dealt.seed⟩
      rw [slots]
      exact rows
    have sound' := dealt.sound (Rules.any_heldBy scheme) sound growing bound waiting carried
    refine (advance_nears scheme sound' growing' vacated env').mono ?_
    rintro _ ⟨last, _⟩ ⟨same, nears⟩
    exact ⟨moved, array, same ▸ parted last.resize, nears⟩

/-- A chain that was evacuated is passed over. -/
theorem evacuate_again (scheme : KeyScheme K δ) (sound : table.Sound Rules.any)
    (growing : table.resize = some resize) (bound : old < resize.array.size)
    (evacuated : (resize.array.chainAt old).isEvacuated = true) (env : Env δ) :
    Yields (evacuate scheme old) (table, env) fun _ s =>
      s.1 = { table with resize := s.1.resize } ∧ resize.Nears resize.array s.1.resize := by
  unfold Yields
  rw [ends_evacuate growing bound, if_pos evacuated]
  exact advance_nears scheme sound growing ((sound.isEvacuated_iff growing bound).mp evacuated) env

end Table

/-- An evacuation splits the chain it is asked for, once. -/
theorem evacuation_partitions_chain {scheme : KeyScheme K δ} (sincere : scheme.Sincere)
    {map : Map K V} (reachable : Reachable scheme map) {resize : Resize K V}
    (growing : map.table.resize = some resize) {old : Nat} (bound : old < resize.array.size)
    (answers : ∀ item ∈ (resize.array.chainAt old).live, scheme.Answers map.table.seed item.2.key)
    (env : Env δ) :
    Yields (Table.evacuate scheme old) (map.table, env) fun _ s =>
      if (resize.array.chainAt old).isEvacuated then
        s.1 = { map.table with resize := s.1.resize } ∧ resize.Nears resize.array s.1.resize
      else
        ∃ moved array, Table.Parted scheme resize old moved array map.table s.1 ∧
          resize.Nears array s.1.resize := by
  obtain ⟨sound, -⟩ := reachable.intact
  split
  · rename_i evacuated
    exact Table.evacuate_again scheme sound growing bound evacuated env
  · rename_i waits
    exact Table.evacuate_parts sincere sound growing bound (Bool.eq_false_iff.mpr waits) answers env

/-- Three of the twelve entries in a chain of four are NaNs. -/
theorem evacuation_partitions_chain_among_nans :
    ∃ (map : Map (Floating .binary32) Nat) (resize : Resize (Floating .binary32) Nat),
      map.table.resize = some resize ∧ resize.array.size = 4 ∧ resize.sameSize = false ∧
      (resize.array.chainAt 1).isEvacuated = false ∧
      (resize.array.chainAt 1).live.length = 12 ∧
      (resize.array.chainAt 1).live.countP (·.2.key.isNaN) = 3 ∧
      ∀ env : Env Unit, Yields (Table.evacuate (Key.floating .binary32 {}) 1) (map.table, env)
        fun _ s => ∃ moved array,
          Table.Parted (Key.floating .binary32 {}) resize 1 moved array map.table s.1 ∧
          resize.Nears array s.1.resize := by
  let nan : Floating .binary32 := ⟨0x7fc00000⟩
  let pairs := (List.range 27).map fun n => (if n % 2 = 0 then nan else .ofNat .binary32 n, n)
  have made : Reachable (V := Nat) (Key.floating .binary32 {}) _ := .made .empty (.ample {}) rfl
  obtain ⟨map, reachable, doubling⟩ : ∃ map : Map (Floating .binary32) Nat,
      Reachable (Key.floating .binary32 {}) map ∧
      (map.table.resize.map fun resize => (resize.array.size, resize.sameSize,
        (resize.array.chainAt 1).isEvacuated, (resize.array.chainAt 1).live.length,
        (resize.array.chainAt 1).live.countP (·.2.key.isNaN))) = some (4, false, false, 12, 3) :=
    ⟨_, made.after (.extend pairs) (.ample {}) () (by decide +kernel), by decide +kernel⟩
  obtain ⟨resize, growing, facts⟩ := Option.map_eq_some_iff.mp doubling
  simp only [Prod.mk.injEq] at facts
  obtain ⟨size, doubles, waits, twelve, three⟩ := facts
  refine ⟨map, resize, growing, size, doubles, waits, twelve, three, fun env => ?_⟩
  have reproduces : (Key.floating .binary32 {}).Reproduces _ := Key.floating_follows.reproduces
  have inside : 1 < resize.array.size := by rw [size]; decide
  have parted := evacuation_partitions_chain reproduces.sincere reachable growing inside
    (fun item _ => reproduces.answers fun known => Key.floating_total item.2.key _ known) env
  simpa only [waits, Bool.false_eq_true, if_false] using parted

end GradualMap
