import GradualMap.Proofs.Outcome
import GradualMap.Proofs.Row

/-!
What a key scheme promises. A `Reading` says which keys are the same and how they hash, apart from
the state the scheme works in; a key that is not the same as itself is a stray. `Rules` say where an
entry may sit, so that the invariant of a table can be stated once for schemes of every kind.
-/

namespace GradualMap

open GradualMap.Action

variable {K δ : Type}

namespace KeyScheme

/-- Some state in which the scheme is asked for the hash of a key and answers `hash`. -/
def Hashes (scheme : KeyScheme K δ) (key : K) (seed hash : UInt64) : Prop :=
  ∃ env, (scheme.hashKey key seed env).1 = .ok hash

/-- The failures that the scheme may meet a key with. -/
def Declines (scheme : KeyScheme K δ) (key : K) (seed : UInt64) (failure : Failure) : Prop :=
  ∃ env, (scheme.hashKey key seed env).1 = .error failure

def Judges (scheme : KeyScheme K δ) (a b : K) (answer : Bool) : Prop :=
  ∃ env, (scheme.same a b env).1 = .ok answer

/-- The failures of a comparison. -/
def Balks (scheme : KeyScheme K δ) (failure : Failure) : Prop :=
  ∃ a b env, (scheme.same a b env).1 = .error failure

variable {scheme : KeyScheme K δ} {key a b : K} {seed : UInt64} {env : KeyEnv δ}

theorem hashKey_ends : Ends (scheme.hashKey key seed) env
    (fun hash _ => scheme.Hashes key seed hash)
    (fun failure _ => scheme.Declines key seed failure) :=
  ends_run.mono (fun _ _ run => ⟨env, by rw [run]⟩) fun _ _ run => ⟨env, by rw [run]⟩

theorem same_ends : Ends (scheme.same a b) env
    (fun answer _ => scheme.Judges a b answer) (fun failure _ => scheme.Balks failure) :=
  ends_run.mono (fun _ _ run => ⟨env, by rw [run]⟩) fun _ _ run => ⟨a, b, env, by rw [run]⟩

/-- A comparison fails by giving up, and in no other way. -/
theorem Balks.aborts {failure : Failure} (h : scheme.Balks failure) : failure.Aborts := by
  obtain ⟨a, b, env, run⟩ := h
  have given_up : Ends (scheme.same a b) env (fun _ _ => True) fun failure _ => failure.Aborts := by
    unfold same
    rw [KeyM.ends_toAction]
    rcases scheme.equal a b env with ⟨text | answer, after⟩
    · exact ⟨_, rfl⟩
    · trivial
  exact given_up.of_error run

theorem selfEqual_ends : Ends (scheme.selfEqual key) env
    (fun answer _ => scheme.Judges key key answer ∨ scheme.traits.reflexive = true ∧ answer = true)
    (fun failure _ => failure.Aborts) := by
  unfold selfEqual
  split
  · rename_i reflexive
    exact .inr ⟨reflexive, rfl⟩
  · exact same_ends.mono (fun _ _ => .inl) fun _ _ => Balks.aborts

/-- A key that is not hashed is refused, unless the operation ends. -/
theorem Declines.refused {failure : Failure} (h : scheme.Declines key seed failure)
    (calm : ¬ failure.Aborts) : ∃ refusal, failure = .fault (.refused refusal) := by
  obtain ⟨env, run⟩ := h
  cases failure with
  | abort cause => exact absurd ⟨cause, rfl⟩ calm
  | fault met =>
    have refused : Ends (scheme.hashKey key seed) env (fun _ _ => True) fun failure _ =>
        failure.Aborts ∨ ∃ refusal, failure = .fault (.refused refusal) := by
      unfold hashKey
      rw [ends_bind, KeyM.ends_toAction]
      rcases scheme.hash key seed env with ⟨text | refusal | hash, after⟩
      · exact .inl ⟨_, rfl⟩
      · exact .inr ⟨refusal, rfl⟩
      · trivial
    exact (refused.of_error run).resolve_left calm

/-- A stored key hashes to what it could have been stored under, or the operation ends. -/
theorem rehash_ends : Ends (scheme.rehash key seed) env
    (fun hash _ => scheme.Hashes key seed hash) (fun failure _ => failure.Aborts) := by
  unfold rehash
  rw [ends_bind, KeyM.ends_toAction]
  rcases run : scheme.hash key seed env with ⟨text | refusal | hash, after⟩
  · exact ⟨_, rfl⟩
  · exact ⟨_, rfl⟩
  · have answered : Ends (scheme.hashKey key seed) env (fun answer _ => answer = hash)
        fun _ _ => False := by
      unfold hashKey
      rw [ends_bind, KeyM.ends_toAction, run]
      rfl
    obtain ⟨_, _, same, rfl⟩ := yields_iff.mp answered
    exact ⟨env, by rw [same]⟩

end KeyScheme

structure Reading (K : Type) where
  same : K → K → Bool
  /-- The hash of a key that is no stray, or its refusal. -/
  code : K → UInt64 → Except Refusal UInt64

namespace Reading

def Stray (reading : Reading K) (key : K) : Prop :=
  reading.same key key = false

/-- A stray is the same as no key at all. -/
def StraysApart (reading : Reading K) : Prop :=
  ∀ a b, reading.same a b = true → reading.same a a = true ∧ reading.same b b = true

/-- Sameness is symmetric and transitive, and the hash agrees with it. -/
structure Coherent (reading : Reading K) : Prop where
  symm : ∀ a b, reading.same a b = true → reading.same b a = true
  trans : ∀ a b c, reading.same a b = true → reading.same b c = true → reading.same a c = true
  alike : ∀ a b seed, reading.same a b = true → reading.code a seed = reading.code b seed

/-- No key is refused, whatever the seed. -/
def Total (reading : Reading K) : Prop :=
  ∀ key seed, reading.same key key = true → ∃ hash, reading.code key seed = .ok hash

theorem Coherent.straysApart {reading : Reading K} (coherent : reading.Coherent) :
    reading.StraysApart := by
  intro a b same
  have back := coherent.symm a b same
  exact ⟨coherent.trans a b a same back, coherent.trans b a b back same⟩

end Reading

/-- The scheme answers as `reading` says, whatever state it is in. Only the hash of a stray is left
open, and whether the scheme changes its state. -/
structure KeyScheme.Follows (scheme : KeyScheme K δ) (reading : Reading K) : Prop where
  equal : ∀ a b env, (scheme.equal a b env).1 = .ok (reading.same a b)
  hash : ∀ key seed env, reading.same key key = true →
    (scheme.hash key seed env).1 = .ok (reading.code key seed)
  stray : ∀ key seed env, reading.Stray key → ∃ hash, (scheme.hash key seed env).1 = .ok (.ok hash)
  reflexive : scheme.traits.reflexive = true → ∀ key, reading.same key key = true

/-- The scheme answers as `reading` says where it answers at all. -/
structure KeyScheme.Agrees (scheme : KeyScheme K δ) (reading : Reading K) : Prop where
  judges : ∀ {a b answer}, scheme.Judges a b answer → answer = reading.same a b
  hashes : ∀ {key seed hash}, reading.same key key = true → scheme.Hashes key seed hash →
    reading.code key seed = .ok hash
  reflexive : scheme.traits.reflexive = true → ∀ key, reading.same key key = true

/-- The same of questions about a single key. -/
structure KeyScheme.Places (scheme : KeyScheme K δ) (reading : Reading K) : Prop where
  self : ∀ {key answer}, scheme.Judges key key answer → answer = reading.same key key
  hashes : ∀ {key seed hash}, reading.same key key = true → scheme.Hashes key seed hash →
    reading.code key seed = .ok hash
  reflexive : scheme.traits.reflexive = true → ∀ key, reading.same key key = true

/-- The scheme answers as `reading` says, whatever state it is in, if it is asked about a single
key. How it compares different keys is left open. -/
structure KeyScheme.Reproduces (scheme : KeyScheme K δ) (reading : Reading K) : Prop where
  self : ∀ key env, (scheme.equal key key env).1 = .ok (reading.same key key)
  hash : ∀ key seed env, reading.same key key = true →
    (scheme.hash key seed env).1 = .ok (reading.code key seed)
  stray : ∀ key seed env, reading.Stray key → ∃ hash, (scheme.hash key seed env).1 = .ok (.ok hash)
  reflexive : scheme.traits.reflexive = true → ∀ key, reading.same key key = true

theorem KeyScheme.Agrees.places {scheme : KeyScheme K δ} {reading : Reading K}
    (agrees : scheme.Agrees reading) : scheme.Places reading where
  self := agrees.judges
  hashes := agrees.hashes
  reflexive := agrees.reflexive

namespace KeyScheme.Reproduces

variable {scheme : KeyScheme K δ} {reading : Reading K} {key : K} {seed hash : UInt64}
  {env : KeyEnv δ}

theorem selfEqual_yields (reproduces : scheme.Reproduces reading) (key : K) (env : KeyEnv δ) :
    Yields (scheme.selfEqual key) env fun answer _ => answer = reading.same key key := by
  unfold selfEqual
  split
  · rename_i reflexive
    exact (reproduces.reflexive reflexive key).symm
  · exact KeyM.yields_toAction (reproduces.self key env)

theorem hashKey_ends (reproduces : scheme.Reproduces reading) (key : K) (seed : UInt64)
    (env : KeyEnv δ) :
    Ends (scheme.hashKey key seed) env
      (fun hash _ => reading.same key key = true → reading.code key seed = .ok hash)
      (fun failure _ => reading.same key key = true ∧ ∃ refusal,
        reading.code key seed = .error refusal ∧ failure = .fault (.refused refusal)) := by
  unfold hashKey
  rw [ends_bind]
  by_cases known : reading.same key key = true
  · apply (KeyM.yields_toAction (reproduces.hash key seed env known)).ends
    rintro answer after rfl
    cases code : reading.code key seed with
    | ok hash => exact fun _ => rfl
    | error refusal => exact ⟨known, refusal, rfl, rfl⟩
  · obtain ⟨hash, answer⟩ := reproduces.stray key seed env (Bool.eq_false_iff.mpr known)
    apply (KeyM.yields_toAction answer).ends
    rintro answer after rfl
    exact fun same => absurd same known

theorem rehash_yields (reproduces : scheme.Reproduces reading)
    (h : reading.same key key = true → reading.code key seed = .ok hash) (env : KeyEnv δ) :
    Yields (scheme.rehash key seed) env
      fun answer _ => reading.same key key = true → answer = hash := by
  unfold rehash Yields
  rw [ends_bind]
  by_cases known : reading.same key key = true
  · apply (KeyM.yields_toAction (reproduces.hash key seed env known)).ends
    rintro answer after rfl
    rw [h known]
    exact fun _ => rfl
  · obtain ⟨fresh, answer⟩ := reproduces.stray key seed env (Bool.eq_false_iff.mpr known)
    apply (KeyM.yields_toAction answer).ends
    rintro answer after rfl
    exact fun same => absurd same known

theorem places (reproduces : scheme.Reproduces reading) : scheme.Places reading where
  self := by
    rintro key answer ⟨env, run⟩
    exact (KeyM.yields_toAction (reproduces.self key env)).of_ok run
  hashes := by
    rintro key seed hash known ⟨env, run⟩
    exact (reproduces.hashKey_ends key seed env).of_ok run known
  reflexive := reproduces.reflexive

end KeyScheme.Reproduces

namespace KeyScheme.Follows

variable {scheme : KeyScheme K δ} {reading : Reading K} {key a b : K} {seed : UInt64}

theorem reproduces (follows : scheme.Follows reading) : scheme.Reproduces reading where
  self key env := follows.equal key key env
  hash := follows.hash
  stray := follows.stray
  reflexive := follows.reflexive

theorem same_yields (follows : scheme.Follows reading) (a b : K) (env : KeyEnv δ) :
    Yields (scheme.same a b) env fun answer _ => answer = reading.same a b :=
  KeyM.yields_toAction (follows.equal a b env)

theorem judges_iff (follows : scheme.Follows reading) {answer : Bool} :
    scheme.Judges a b answer → answer = reading.same a b := by
  rintro ⟨env, run⟩
  exact (follows.same_yields a b env).of_ok run

theorem not_balks (follows : scheme.Follows reading) {failure : Failure} :
    ¬ scheme.Balks failure := by
  rintro ⟨a, b, env, run⟩
  exact (follows.same_yields a b env).of_error run

theorem agrees (follows : scheme.Follows reading) : scheme.Agrees reading where
  judges := follows.judges_iff
  hashes := follows.reproduces.places.hashes
  reflexive := follows.reflexive

theorem declines (follows : scheme.Follows reading) {failure : Failure}
    (h : scheme.Declines key seed failure) : reading.same key key = true ∧ ∃ refusal,
      reading.code key seed = .error refusal ∧ failure = .fault (.refused refusal) := by
  obtain ⟨env, run⟩ := h
  exact (follows.reproduces.hashKey_ends key seed env).of_error run

end KeyScheme.Follows

/-- What a table is held to beyond its shape: where a key may sit under which hash byte, in an array
of so many chains, and whether its chains are to be exact about where their entries end. -/
structure Rules (K : Type) where
  admits : (seed : UInt64) → (size index : Nat) → (top : UInt8) → K → Prop
  exact : Prop

/-- A key may enter the chain of its hash, and where its chain is split it goes where it may be, if
the scheme does not stall on it. -/
structure Rules.HeldBy (rules : Rules K) (scheme : KeyScheme K δ) (stalls : Failure → Prop) :
    Prop where
  enters : ∀ {key seed hash}, scheme.Hashes key seed hash → ∀ exponent,
    rules.admits seed (bucketCount exponent) (bucketIndex hash exponent) (topHash hash) key
  splits : ∀ {key seed size index top}, rules.admits seed size index top key → index < size →
    ∀ env, Ends (Routing.route ⟨seed, false, size⟩ scheme top key) env
      (fun (half, top) _ =>
        rules.admits seed (2 * size) (Routing.target ⟨seed, false, size⟩ index half) top key)
      (fun failure _ => stalls failure)

/-- The same, and the scheme does not stall on a key that is stored. -/
abbrev Rules.KeptBy (rules : Rules K) (scheme : KeyScheme K δ) : Prop :=
  rules.HeldBy scheme fun _ => False

/-- Neither a kept hash byte nor a fresh one is among those set apart. -/
theorem Routing.route_minTopHash {routing : Routing} {scheme : KeyScheme K δ} {top : UInt8}
    {key : K} {env : KeyEnv δ} (h : minTopHash ≤ top) :
    Ends (routing.route scheme top key) env (fun routed _ => minTopHash ≤ routed.2)
      fun _ _ => True := by
  unfold Routing.route
  split
  · exact h
  · simp only [ends_bind]
    refine ends_run.mono (fun hash _ _ => ?_) fun _ _ _ => trivial
    refine ends_run.mono (fun self _ _ => ?_) fun _ _ _ => trivial
    cases self
    · exact minTopHash_le_topHash hash
    · exact h

namespace Reading

/-- Where a reading places a key: in the chain of its hash, under its hash byte. Strays may sit
anywhere. -/
def rules (reading : Reading K) (exact : Prop) : Rules K where
  admits seed size index top key := reading.same key key = true →
    ∃ hash, reading.code key seed = .ok hash ∧ hash.toNat % size = index ∧ topHash hash = top
  exact := exact

variable {reading : Reading K} {scheme : KeyScheme K δ}

/-- A key that is the same as itself goes where its hash says, and a stray anywhere. -/
theorem rules_splits (places : scheme.Places reading) (exact : Prop) {key : K} {seed : UInt64}
    {size index : Nat} {top : UInt8} (admits : (reading.rules exact).admits seed size index top key)
    (env : KeyEnv δ) :
    Ends (Routing.route ⟨seed, false, size⟩ scheme top key) env
      (fun (half, top) _ => (reading.rules exact).admits seed (2 * size)
        (Routing.target ⟨seed, false, size⟩ index half) top key)
      (fun failure _ => failure.Aborts) := by
  unfold Routing.route
  simp only [Bool.false_eq_true, if_false, ends_bind]
  refine KeyScheme.rehash_ends.mono (fun again env hashes => ?_) fun _ _ => id
  refine KeyScheme.selfEqual_ends.mono (fun self env judges => ?_) fun _ _ => id
  have judged : self = reading.same key key := by
    rcases judges with judges | ⟨reflexive, rfl⟩
    · exact places.self judges
    · exact (places.reflexive reflexive key).symm
  by_cases known : reading.same key key = true
  · obtain ⟨hash, code, place, byte⟩ := admits known
    obtain rfl : again = hash := Except.ok.inj ((places.hashes known hashes).symm.trans code)
    rw [judged, known]
    intro _
    refine ⟨_, code, ?_, byte⟩
    rw [Nat.mul_comm, Nat.mod_mul, place]
    rcases Nat.mod_two_eq_zero_or_one (again.toNat / size) with even | odd
    · simp [even, Routing.target]
    · simp [odd, Routing.target]
  · rw [judged, Bool.eq_false_iff.mpr known]
    exact fun same => absurd same known

theorem rules_heldBy (places : scheme.Places reading) (exact : Prop) :
    (reading.rules exact).HeldBy scheme Failure.Aborts where
  enters h _ known := ⟨_, places.hashes known h, rfl, rfl⟩
  splits admits _ env := rules_splits places exact admits env

theorem rules_keptBy (reproduces : scheme.Reproduces reading) (exact : Prop) :
    (reading.rules exact).KeptBy scheme where
  enters := (rules_heldBy reproduces.places exact).enters
  splits {key seed size index top} admits _ env := by
    have answers : Yields (Routing.route ⟨seed, false, size⟩ scheme top key) env
        fun _ _ => True := by
      unfold Routing.route Yields
      simp only [Bool.false_eq_true, if_false, ends_bind]
      have code : ∃ hash, reading.same key key = true → reading.code key seed = .ok hash := by
        by_cases known : reading.same key key = true
        · obtain ⟨hash, code, _⟩ := admits known
          exact ⟨hash, fun _ => code⟩
        · exact ⟨0, fun same => absurd same known⟩
      obtain ⟨hash, code⟩ := code
      refine (reproduces.rehash_yields code env).ends fun again env _ => ?_
      refine (reproduces.selfEqual_yields key env).ends fun self env _ => ?_
      cases self <;> trivial
    exact (answers.also (rules_splits reproduces.places exact admits env)).ends fun _ _ h => h.2

end Reading

namespace Rules

/-- Any key may be anywhere, but the chains are exact about where their entries end. -/
def any : Rules K where
  admits _ _ _ _ _ := True
  exact := True

/-- Whatever the scheme does. -/
theorem any_heldBy (scheme : KeyScheme K δ) : Rules.any.HeldBy scheme Failure.Aborts where
  enters _ _ := trivial
  splits _ _ env := by
    unfold Routing.route
    simp only [Bool.false_eq_true, if_false, ends_bind]
    refine KeyScheme.rehash_ends.mono (fun again env _ => ?_) fun _ _ => id
    refine KeyScheme.selfEqual_ends.mono (fun self env _ => ?_) fun _ _ => id
    cases self <;> trivial

end Rules

end GradualMap
