import GradualMap.Proofs.Pacing
import Mathlib.Algebra.Group.Nat.Defs

/-!
What a capacity is good for. It is turned into the smallest exponent that it does not overload, by
tests that no machine word is too small for. As long as no more entries than that are stored the
exponent stays: an array is doubled for a new entry that is one too many, and for nothing else.
-/

namespace GradualMap

open GradualMap.Action

variable {K V δ ρ : Type}

/-- The event tells of the start of a resize to an array twice as large. -/
def Event.doubles : Event → Bool
  | .growthStarted _ _ _ _ sameSize => !sameSize
  | _ => false

theorem Event.starts_of_doubles {event : Event} (doubles : event.doubles = true) :
    event.starts = true := by
  cases event with
  | growthStarted => rfl
  | _ => cases doubles

namespace Table

variable {scheme : KeyScheme K δ} {table : Table K V} {before between after : Table K V × List Event}

/-- A resize in flight only packs the chains. -/
def Packing (table : Table K V) : Prop :=
  ∀ resize, table.resize = some resize → resize.sameSize = true

/-- The exponent is raised by every doubling that is told of, and by nothing else. -/
structure Climbed (before after : Table K V × List Event) : Prop where
  told : ∃ news, after.2 = news ++ before.2 ∧
    after.1.exponent = before.1.exponent + news.countP Event.doubles
  packs : after.1.exponent = before.1.exponent → before.1.Packing → after.1.Packing

namespace Climbed

theorem refl (before : Table K V × List Event) : Climbed before before :=
  ⟨⟨[], rfl, rfl⟩, fun _ packing => packing⟩

theorem trans (first : Climbed before between) (second : Climbed between after) :
    Climbed before after := by
  obtain ⟨⟨news, log, raised⟩, packs⟩ := first
  obtain ⟨⟨news', log', raised'⟩, packs'⟩ := second
  constructor
  · refine ⟨news' ++ news, ?_, ?_⟩
    · rw [log', log, List.append_assoc]
    · rw [raised', raised, List.countP_append]
      omega
  · intro same packing
    -- Neither part lowers the exponent, so both leave it as it is.
    exact packs' (by omega) (packs (by omega) packing)

/-- What is told of is no doubling. -/
theorem of_quiet {after : Table K V} {news : List Event}
    (quiet : ∀ event ∈ news, event.doubles = false)
    (exponent : after.exponent = before.1.exponent) (packs : before.1.Packing → after.Packing) :
    Climbed before (after, news ++ before.2) := by
  have none : news.countP Event.doubles = 0 := by simpa [List.countP_eq_zero] using quiet
  constructor
  · exact ⟨news, rfl, by simp [none, exponent]⟩
  · exact fun _ => packs

theorem silent {after : Table K V} (exponent : after.exponent = before.1.exponent)
    (packs : before.1.Packing → after.Packing) : Climbed before (after, before.2) :=
  of_quiet (List.forall_mem_nil _) exponent packs

theorem telling {after : Table K V} {event : Event} (quiet : event.doubles = false)
    (exponent : after.exponent = before.1.exponent) (packs : before.1.Packing → after.Packing) :
    Climbed before (after, event :: before.2) :=
  of_quiet (List.forall_mem_singleton.mpr quiet) exponent packs

end Climbed

theorem Shift.climbed (shift : Shift scheme before after) : Climbed before after := by
  cases shift with
  | @move table after log resize old moved growing bound waits carried dealt =>
    obtain ⟨array, growing', _⟩ := dealt.vacated resize growing
    refine .silent dealt.exponent fun packing resize' growing'' => ?_
    obtain rfl := Option.some.inj (growing'.symm.trans growing'')
    exact packing resize growing
  | @advance table log resize cursor growing ahead bound passed =>
    refine .silent rfl fun packing => ?_
    rintro _ ⟨⟩
    exact packing resize growing
  | finish growing all =>
    refine .telling rfl rfl fun _ => ?_
    rintro _ ⟨⟩

theorem Shifts.climbed (shifts : Shifts scheme before after) : Climbed before after := by
  induction shifts with
  | refl => exact .refl _
  | tail _ shift ih => exact ih.trans shift.climbed

theorem climbed_start (table : Table K V) (log : List Event) :
    Climbed (table, log) (table.started, table.startEvent :: log) := by
  cases bigger : overloaded (table.count + 1) table.exponent with
  | true =>
    have raised : table.started.exponent = table.exponent + 1 := by simp [started, bigger]
    constructor
    · exact ⟨[_], rfl, by simp [raised, startEvent, Event.doubles, bigger]⟩
    · intro same
      simp only at same
      omega
  | false =>
    have stays : table.started.exponent = table.exponent := by simp [started, bigger]
    refine .telling ?_ stays fun _ => ?_
    · simp [startEvent, Event.doubles, bigger]
    · rintro _ ⟨⟩
      simp [bigger]

theorem Room.climbed {index offset : Nat} (room : Room index before offset after)
    {filled : Table K V} (exponent : filled.exponent = after.1.exponent)
    (resize : filled.resize = after.1.resize) : Climbed before (filled, after.2) := by
  cases room with
  | free first =>
    refine .silent exponent fun packing => ?_
    unfold Packing
    rwa [resize]
  | linked full overflowCount counted =>
    refine .telling rfl exponent fun packing => ?_
    unfold Packing
    rwa [resize]

theorem climbed_put (table : Table K V) (log : List Event) (pos : Position) (slot : Slot K V) :
    Climbed (table, log) (table.put pos slot, log) := by
  refine .silent (put_exponent ..) fun packing => ?_
  obtain ⟨_ | _, index, offset⟩ := pos
  · exact packing
  · intro resize growing
    obtain ⟨resize', growing', rfl⟩ := Option.map_eq_some_iff.mp growing
    exact packing resize' growing'

theorem Step.climbed (step : Step scheme before after) : Climbed before after := by
  cases step with
  | shift shift => exact shift.climbed
  | reserve bare => exact .silent rfl id
  | start idle allocated small => exact climbed_start _ _
  | fill allocated worked calm absent room hashes =>
    exact worked.shifts.climbed.trans (room.climbed rfl rfl)
  | write holds value => exact climbed_put ..
  | rekey holds judges hashes value => exact climbed_put ..
  | remove holds => exact .silent rfl id
  | thin idle thinned =>
    refine .silent thinned.exponent fun _ resize growing => ?_
    rw [thinned.idle] at growing
    cases growing
  | reseed empty seed told =>
    rcases told with rfl | rfl
    · exact .silent rfl id
    · exact .telling rfl rfl id
  | clear seed =>
    refine .telling rfl rfl fun _ => ?_
    rintro _ ⟨⟩

theorem Path.climbed (path : Path scheme before after) : Climbed before after := by
  induction path with
  | refl => exact .refl _
  | tail _ step ih => exact ih.trans step.climbed

/-- Without the start of a resize the exponent stays. -/
theorem Climbed.exponent_eq (climbed : Climbed before after)
    (still : after.2.countP Event.starts = before.2.countP Event.starts) :
    after.1.exponent = before.1.exponent := by
  obtain ⟨news, log, raised⟩ := climbed.told
  have fewer : news.countP Event.doubles ≤ news.countP Event.starts :=
    List.countP_mono_left fun _ _ => Event.starts_of_doubles
  rw [log, List.countP_append] at still
  omega

/-- With the exponent as it was only resizes of the same size were started. -/
theorem Climbed.quiet (climbed : Climbed before after)
    (same : after.1.exponent = before.1.exponent) :
    ∃ news, after.2 = news ++ before.2 ∧ ∀ event ∈ news, event.doubles = false := by
  obtain ⟨news, log, raised⟩ := climbed.told
  refine ⟨news, log, fun event mem => ?_⟩
  have none : news.countP Event.doubles = 0 := by omega
  simpa using List.countP_eq_zero.mp none event mem

end Table

namespace Call

/-- A call that may add an entry. -/
def stores : Call K V ρ → Bool
  | .insert .. | .getOrInsert .. | .extend _ => true
  | _ => false

variable {scheme : KeyScheme K δ} {map : Map K V}

/-- No other call starts a resize. -/
theorem leaves_attempt_of_not_stores {γ : Type} {view : Env δ → γ} [Env.Aloof view]
    {call : Call K V ρ} (plain : call.stores = false) :
    Leaves (fun s : (Map K V × Env δ) × ρ => Env.around view s.1) (call.attempt scheme) := by
  have reads {α : Type} {act : Map K V → Action (KeyEnv δ) α} {answer : α → Answer K V} :
      Leaves (fun s : (Map K V × Env δ) × ρ => Env.around view s.1)
        (first do return answer (← Map.onKeys (act (← Map.read)))) :=
    (Map.leaves_read.bind fun _ => Map.leaves_onKeys.bind fun _ => leaves_pure).first
  cases call with
  | insert | getOrInsert | extend => cases plain
  | get => exact reads
  | getPair => exact reads
  | contains => exact reads
  | list => exact reads
  | adjust => exact Map.leaves_adjust.first.map
  | remove => exact (Map.leaves_removePair?.bind fun _ => leaves_pure).first.map
  | removePair => exact Map.leaves_removePair?.first.map
  | clear => exact Map.leaves_clear.first.map
  | retain => exact Map.leaves_retain.map
  | sweep writes =>
    exact (Sweep.leaves_ofMap.bind fun _ => (Sweep.leaves_through writes).bind fun _ =>
      leaves_pure).first
  | len => exact (Map.leaves_read.bind fun _ => leaves_pure).first

theorem attempt_paces (steadfast : scheme.Steadfast) (sound : map.table.Sound Rules.any)
    (roomy : map.table.Uncrowded) (free : map.latch.held = false) (call : Call K V ρ)
    (env : Env δ) (own : ρ) :
    Leads (call.attempt scheme) ((map, env), own) fun s =>
      s.1.1.table.exponent = map.table.exponent ∨
        overloaded s.1.1.len map.table.exponent = true := by
  by_cases adds : call.stores = true
  · suffices paces : Leads (call.attempt scheme) ((map, env), own)
        fun s => map.table.Paced s.1.1.table from paces.mono fun s paced => paced.exponent
    cases call with
    | insert key value =>
      exact leads_map.mpr (ends_first.mpr (Map.insert?_paces steadfast sound roomy free value))
    | getOrInsert key default f =>
      exact leads_map.mpr (Map.getOrInsert?_paces steadfast sound roomy free _ f)
    | extend pairs =>
      exact leads_map.mpr (ends_first.mpr (Map.extend_paces steadfast pairs sound roomy free))
    | _ => cases adds
  · have leaves : Leaves (fun s : (Map K V × Env δ) × ρ => Env.around Env.begun s.1)
        (call.attempt scheme) := leaves_attempt_of_not_stores (Bool.eq_false_iff.mpr adds)
    apply ((call.attempt_leads sound free).leaving leaves).mono
    · rintro _ s ⟨led, still⟩
      exact .inl (led.path.climbed.exponent_eq still)
    · rintro failure s ⟨led, still⟩ calm
      exact .inl ((led calm).path.climbed.exponent_eq still)

end Call

/-- The product of two words, or the largest word if that is less. -/
def saturatingProduct (a b : UInt64) : UInt64 :=
  .ofNat (min (a.toNat * b.toNat) (2 ^ 64 - 1))

/-- The load test as machine words carry it out. -/
def overloadedWord (count : UInt64) (exponent : Nat) : Bool :=
  8 < count && saturatingProduct 13 ((1 <<< UInt64.ofNat exponent) / 2) < count

theorem toNat_shiftLeft_one {exponent : Nat} (small : exponent < 64) :
    ((1 : UInt64) <<< UInt64.ofNat exponent).toNat = bucketCount exponent := by
  have word : (UInt64.ofNat exponent).toNat = exponent :=
    UInt64.toNat_ofNat_of_lt (Nat.lt_trans small (by decide))
  rw [UInt64.toNat_shiftLeft, word, Nat.mod_eq_of_lt small, UInt64.toNat_one, Nat.one_shiftLeft]
  exact Nat.mod_eq_of_lt (Nat.pow_lt_pow_right (by decide) small)

/-- No word is above the largest one, so a product that was cut off there decides nothing else. -/
theorem overloadedWord_eq (count : UInt64) {exponent : Nat} (small : exponent < 64) :
    overloadedWord count exponent = overloaded count.toNat exponent := by
  have shifted := toNat_shiftLeft_one small
  have largest := count.toNat_lt
  have product : (saturatingProduct 13 ((1 <<< UInt64.ofNat exponent) / 2)).toNat =
      min (13 * (bucketCount exponent / 2)) (2 ^ 64 - 1) := by
    have factors : (13 : UInt64).toNat = 13 ∧ (2 : UInt64).toNat = 2 := ⟨rfl, rfl⟩
    rw [saturatingProduct, UInt64.toNat_div, shifted, factors.1, factors.2]
    apply UInt64.toNat_ofNat_of_lt
    exact Nat.lt_of_le_of_lt (Nat.min_le_right _ _) (by decide)
  rw [Bool.eq_iff_iff, overloaded_eq_true, overloadedWord, Bool.and_eq_true, decide_eq_true_iff,
    decide_eq_true_iff, UInt64.lt_iff_toNat_lt, UInt64.lt_iff_toNat_lt, product]
  have eight : (8 : UInt64).toNat = 8 := rfl
  omega

/-- What the search for an exponent comes to, and that no test on the way would have come to
anything else without the bounds of a word. -/
structure Sized (hint : UInt64) (exponent : Nat) : Prop where
  fits : hint.toNat ≤ 8 ∨ hint.toNat ≤ 13 * (2 ^ exponent / 2)
  least : ∀ smaller < exponent, ¬ (hint.toNat ≤ 8 ∨ hint.toNat ≤ 13 * (2 ^ smaller / 2))
  le : exponent ≤ 62
  shift : ∀ tested ≤ exponent, ((1 : UInt64) <<< UInt64.ofNat tested).toNat = 2 ^ tested
  test : ∀ tested ≤ exponent, overloadedWord hint tested = overloaded hint.toNat tested

theorem sized_exponentFor (hint : UInt64) : Sized hint (exponentFor hint.toNat) := by
  have le := exponentFor_le hint
  constructor
  · exact overloaded_eq_false.mp (overloaded_exponentFrom hint.toNat 0)
  · intro smaller below fits
    have full := overloaded_of_lt_exponentFrom (Nat.zero_le smaller) below
    rw [overloaded_eq_false.mpr fits] at full
    cases full
  · exact le
  · exact fun tested below => toNat_shiftLeft_one (by omega)
  · exact fun tested below => overloadedWord_eq hint (by omega)

/-- The maps that calls lead to from one that was made for `capacity` entries, if none of them
aborts and none leaves more entries than that. -/
inductive Provided (scheme : KeyScheme K δ) (capacity : UInt64) : Map K V → Prop
  | made {map : Map K V} (env : Env δ)
      (run : ((Origin.sized capacity).make? env).1 = .ok map) : Provided scheme capacity map
  | called {before after : Map K V} {ρ : Type} {env env' : Env δ} {own own' : ρ}
      {result : Except Failure (Answer K V)} (call : Call K V ρ)
      (provided : Provided scheme capacity before)
      (run : call.attempt scheme ((before, env), own) = (result, ((after, env'), own')))
      (calm : ∀ cause, result ≠ .error (.abort cause)) (within : after.len ≤ capacity.toNat) :
      Provided scheme capacity after

theorem Provided.reachable {scheme : KeyScheme K δ} {capacity : UInt64} {map : Map K V}
    (provided : Provided scheme capacity map) : Reachable scheme map := by
  induction provided with
  | made env run => exact .made (.sized capacity) env run
  | called call _ run calm _ ih => exact .called call ih run calm

theorem Provided.of_isSome {scheme : KeyScheme K δ} {capacity : UInt64} (env : Env δ)
    (granted : ((Origin.sized capacity).make? (K := K) (V := V) env).1.toOption.isSome = true) :
    Provided scheme capacity (Option.get _ granted) := by
  refine .made env ?_
  generalize ((Origin.sized capacity).make? env).1 = made at granted
  cases made with
  | ok map => rfl
  | error failure => cases granted

theorem Provided.after {scheme : KeyScheme K δ} {capacity : UInt64} {map : Map K V}
    (provided : Provided scheme capacity map) (call : Call K V ρ) (env : Env δ) (own : ρ)
    (done : (call.attempt scheme ((map, env), own)).1.toOption.isSome = true ∧
      (call.attempt scheme ((map, env), own)).2.1.1.len ≤ capacity.toNat) :
    Provided scheme capacity (call.attempt scheme ((map, env), own)).2.1.1 :=
  .called call provided rfl (calm_of_isSome done.1) done.2

/-- A map is made with as many chains as its capacity takes. -/
theorem Map.withCapacity?_exponent (capacity : Nat) (env : Env δ) :
    Ends (withCapacity? capacity : Action (Env δ) (Map K V)) env
      (fun map _ => map.table.exponent = exponentFor capacity ∧ map.table.resize = none)
      (fun _ _ => True) := by
  unfold withCapacity? Table.withCapacity
  simp only [ends_bind]
  split
  · rw [ends_bind, ends_pure, ends_bind, Env.ends_onKeys]
    exact (KeyEnv.draw_yields _).ends fun seed keys _ => ⟨rfl, rfl⟩
  · rw [ends_bind]
    refine ends_run.mono (fun current env _ => ?_) fun _ _ _ => trivial
    rw [ends_bind, Env.ends_onKeys]
    exact (KeyEnv.draw_yields _).ends fun seed keys _ => ⟨rfl, rfl⟩

/-- A call on a map that its capacity is enough for has left the chains as many as they are. -/
structure Map.Unstretched (before after : Map K V × Env δ) : Prop where
  exponent : after.1.table.exponent = before.1.table.exponent
  packs : before.1.table.Packing → after.1.table.Packing
  /-- What was started, if anything, were resizes of the same size. -/
  told : ∃ news, after.2.log = news ++ before.2.log ∧ ∀ event ∈ news, event.doubles = false

theorem Call.attempt_unstretched {scheme : KeyScheme K δ} (steadfast : scheme.Steadfast)
    {map : Map K V} (reachable : Reachable scheme map) {count : Nat}
    (fits : overloaded count map.table.exponent = false) (call : Call K V ρ) (env : Env δ)
    (own : ρ) :
    Leads (call.attempt scheme) ((map, env), own)
      fun s => s.1.1.len ≤ count → Map.Unstretched (map, env) s.1 := by
  obtain ⟨sound, free⟩ := reachable.intact
  have leads : Leads (call.attempt scheme) ((map, env), own)
      fun s => Map.Led (Table.Treads scheme) (map, env) s.1 := call.attempt_leads sound free
  have paces := call.attempt_paces steadfast sound reachable.estimated.roomy free env own
  have done (s : (Map K V × Env δ) × ρ) (led : Map.Led (Table.Treads scheme) (map, env) s.1)
      (paced : s.1.1.table.exponent = map.table.exponent ∨
        overloaded s.1.1.len map.table.exponent = true) (within : s.1.1.len ≤ count) :
      Map.Unstretched (map, env) s.1 := by
    have same : s.1.1.table.exponent = map.table.exponent := by
      rcases paced with same | full
      · exact same
      · rw [overloaded_mono within fits] at full
        cases full
    exact ⟨same, led.path.climbed.packs same, led.path.climbed.quiet same⟩
  apply (Ends.both leads paces).mono
  · exact fun _ s both => done s both.1 both.2
  · exact fun failure s both calm => done s (both.1 calm) (both.2 calm)

theorem Provided.exponent {scheme : KeyScheme K δ} (steadfast : scheme.Steadfast)
    {capacity : UInt64} {map : Map K V} (provided : Provided scheme capacity map) :
    map.table.exponent = exponentFor capacity.toNat ∧ map.table.Packing := by
  induction provided with
  | made env run =>
    obtain ⟨exponent, idle⟩ := (Map.withCapacity?_exponent capacity.toNat env).of_ok run
    refine ⟨exponent, fun resize growing => ?_⟩
    rw [idle] at growing
    cases growing
  | @called _ _ _ env _ own _ _ call earlier run calm within ih =>
    obtain ⟨exponent, packing⟩ := ih
    have fits := overloaded_exponentFrom capacity.toNat 0
    rw [← exponentFor, ← exponent] at fits
    have stays := (call.attempt_unstretched steadfast earlier.reachable fits env own).after run calm
      within
    exact ⟨stays.exponent.trans exponent, stays.packs packing⟩

/-- A map that has as many chains as it was made with, and keeps them as long as its capacity is
enough. -/
structure Map.Honours (scheme : KeyScheme K δ) (capacity : UInt64) (map : Map K V) : Prop where
  exponent : map.table.exponent = exponentFor capacity.toNat
  array : map.table.current.isAllocated = true →
    map.table.current.size = bucketCount (exponentFor capacity.toNat)
  packing : map.table.Packing
  call : ∀ {ρ : Type} (call : Call K V ρ) (env : Env δ) (own : ρ),
    Leads (call.attempt scheme) ((map, env), own)
      fun s => s.1.1.len ≤ capacity.toNat → Map.Unstretched (map, env) s.1

/-- A capacity is turned into the smallest exponent that is enough for it, whatever word it is. A
map that was made with it keeps that exponent under every call that does not abort and leaves no
more entries than the capacity, however the keys are hashed: resizes only pack the chains. -/
theorem capacity_honoured {scheme : KeyScheme K δ} (steadfast : scheme.Steadfast)
    (capacity : UInt64) :
    Sized capacity (exponentFor capacity.toNat) ∧
    ∀ {map : Map K V}, Provided scheme capacity map → map.Honours scheme capacity := by
  refine ⟨sized_exponentFor capacity, fun {map} provided => ?_⟩
  obtain ⟨exponent, packing⟩ := provided.exponent steadfast
  have fits := overloaded_exponentFrom capacity.toNat 0
  rw [← exponentFor, ← exponent] at fits
  constructor
  · exact exponent
  · intro allocated
    rw [← exponent]
    exact provided.reachable.intact.1.size_eq (by simpa [BucketArray.isAllocated] using allocated)
  · exact packing
  · exact fun call env own =>
      call.attempt_unstretched steadfast provided.reachable fits env own

/-- Of two maps made for twenty-six entries one has to pack its four chains, and the other one is
full, so that the next new entry would double it: a write over a key that is there does not. -/
theorem capacity_honoured_when_full :
    Sized 26 2 ∧ ∃ packed full : Map UInt64 Nat,
      packed.table.resize.isSome = true ∧ packed.Honours (Key.Masked.scheme {}) 26 ∧
      full.len = 26 ∧ full.table.mustGrow = true ∧ full.Honours (Key.Masked.scheme {}) 26 ∧
      ∃ after, after.1.len = 26 ∧ after.2.log = [] ∧
        Map.Unstretched (full, .lenient {}) after := by
  have agrees : (Key.Masked.scheme {}).Agrees (Key.maskedReading {}) := Key.masked_agrees fun _ => rfl
  have coherent : (Key.maskedReading {}).Coherent := Key.masked_coherent rfl
  have steadfast := agrees.steadfast coherent.straysApart
  let fours := (List.range 17).map fun n => ((4 * n).toUInt64, n)
  let others := (List.range 17).map fun n => ((4 * n + 1).toUInt64, n)
  have made : Provided (V := Nat) (Key.Masked.scheme {}) 26 _ := .of_isSome (.lenient {})
    (by decide +kernel)
  have sized : exponentFor 26 = 2 := by decide +kernel
  obtain ⟨packed, provided, packing⟩ : ∃ map : Map UInt64 Nat,
      Provided (Key.Masked.scheme {}) 26 map ∧ map.table.resize.isSome = true :=
    ⟨_, (((made.after (.extend fours) (.lenient {}) () (by decide +kernel)).after
      (.retain fun key value => return (value, key = 0)) (.lenient {}) ()
      (by decide +kernel)).after (.extend others) (.lenient {}) () (by decide +kernel)).after
      (.insert 2 2) (.lenient {}) () (by decide +kernel), by decide +kernel⟩
  let rewrite : Call UInt64 Nat Unit := .insert 3 0
  obtain ⟨full, provided', len, must, answered, len', log⟩ : ∃ map : Map UInt64 Nat,
      Provided (Key.Masked.scheme {}) 26 map ∧ map.len = 26 ∧ map.table.mustGrow = true ∧
      (rewrite.attempt (Key.Masked.scheme {}) ((map, .lenient {}), ())).1.toOption.isSome = true ∧
      (rewrite.attempt (Key.Masked.scheme {}) ((map, .lenient {}), ())).2.1.1.len = 26 ∧
      (rewrite.attempt (Key.Masked.scheme {}) ((map, .lenient {}), ())).2.1.2.log = [] :=
    ⟨_, made.after (.extend ((List.range 26).map fun n => (n.toUInt64, n))) (.lenient {}) ()
      (by decide +kernel), by decide +kernel⟩
  obtain ⟨size, honours⟩ := capacity_honoured (V := Nat) steadfast 26
  have kept := (honours provided').call rewrite (.lenient {}) ()
  exact ⟨sized ▸ size, packed, full, packing, honours provided, len, must, honours provided', _,
    len', log, kept.after rfl (calm_of_isSome answered) (Nat.le_of_eq len')⟩

end GradualMap
