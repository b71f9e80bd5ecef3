import GradualMap.Key.Floating
import GradualMap.Key.Masked
import GradualMap.Key.Standard
import GradualMap.Proofs.Scheme

/-!
The readings that the schemes at hand follow.
-/

namespace GradualMap

open GradualMap.Action

/-- Surroundings with memory for everything, for schemes without a state. -/
def Env.ample (draws : Draws) : Env Unit where
  keys := ⟨draws, ()⟩

/-- Surroundings with memory for everything, in which a masked scheme refuses nothing. -/
def Env.lenient (draws : Draws) : Env Key.MaskedState where
  keys := ⟨draws, {}⟩

namespace Key

variable {K : Type} [DecidableEq K] {hasher : Hasher} {bytes : K → List UInt8}
  {format : FloatFormat}

def standardReading (hasher : Hasher) (bytes : K → List UInt8) : Reading K where
  same a b := decide (a = b)
  code key seed := .ok (hasher.hash (littleEndian 8 seed.toNat ++ bytes key))

theorem standard_follows : (standard hasher bytes).Follows (standardReading hasher bytes) where
  equal _ _ _ := rfl
  hash _ _ _ _ := rfl
  stray key _ _ stray := by simp [Reading.Stray, standardReading] at stray
  reflexive _ key := by simp [standardReading]

theorem standard_coherent : (standardReading hasher bytes).Coherent where
  symm a b same := by
    simp only [standardReading, decide_eq_true_eq] at same ⊢
    exact same.symm
  trans a b c first second := by
    simp only [standardReading, decide_eq_true_eq] at first second ⊢
    exact first.trans second
  alike a b seed same := by
    simp only [standardReading, decide_eq_true_eq] at same
    rw [same]

theorem standard_total : (standardReading hasher bytes).Total :=
  fun _ _ _ => ⟨_, rfl⟩

def wordReading (hasher : Hasher) : Reading UInt64 :=
  standardReading hasher fun key => littleEndian 8 key.toNat

theorem word_follows (hasher : Hasher) : (word hasher).Follows (wordReading hasher) :=
  standard_follows

theorem word_coherent (hasher : Hasher) : (wordReading hasher).Coherent :=
  standard_coherent

theorem word_total (hasher : Hasher) : (wordReading hasher).Total :=
  standard_total

/-- The bytes that a float is hashed by, unless it is a NaN. -/
def floatBytes (key : Floating format) : List UInt8 :=
  if key.isZero then [0] else littleEndian (format.width / 8) key.bits.toNat

def floatingReading (format : FloatFormat) (hasher : Hasher) : Reading (Floating format) where
  same := Floating.equal
  code key seed := .ok (hasher.hash (littleEndian 8 seed.toNat ++ floatBytes key))

theorem floating_stray_iff {key : Floating format} :
    (floatingReading format hasher).Stray key ↔ key.isNaN = true := by
  simp [Reading.Stray, floatingReading, Floating.equal]

theorem floating_follows : (floating format hasher).Follows (floatingReading format hasher) where
  equal _ _ _ := rfl
  hash key seed env known := by
    have number : key.isNaN = false := by
      simpa [floatingReading, Floating.equal] using known
    unfold floating floatingReading floatBytes
    simp only [number, Bool.false_eq_true, if_false]
    cases key.isZero <;> rfl
  stray key seed env stray := by
    have nan : key.isNaN = true := floating_stray_iff.mp stray
    refine ⟨hasher.hash (littleEndian 8 seed.toNat ++
      littleEndian 4 env.draws.next.1.toNat), ?_⟩
    unfold floating
    simp only [nan]
    rfl
  reflexive irreflexive := by cases irreflexive

theorem floating_coherent : (floatingReading format hasher).Coherent where
  symm a b same := by
    simp only [floatingReading, Floating.equal, Bool.and_eq_true, Bool.not_eq_true', Bool.or_eq_true,
      decide_eq_true_eq] at same ⊢
    exact ⟨⟨same.1.2, same.1.1⟩, same.2.imp Eq.symm And.symm⟩
  trans a b c first second := by
    simp only [floatingReading, Floating.equal, Bool.and_eq_true, Bool.not_eq_true', Bool.or_eq_true,
      decide_eq_true_eq] at first second ⊢
    refine ⟨⟨first.1.1, second.1.2⟩, ?_⟩
    rcases first.2 with rfl | zeros
    · exact second.2
    · rcases second.2 with rfl | zeros'
      · exact .inr zeros
      · exact .inr ⟨zeros.1, zeros'.2⟩
  alike a b seed same := by
    simp only [floatingReading, Floating.equal, Bool.and_eq_true, Bool.not_eq_true', Bool.or_eq_true,
      decide_eq_true_eq] at same
    rcases same.2 with rfl | ⟨zero, zero'⟩
    · rfl
    · simp only [floatingReading, floatBytes, zero, zero', if_true]

theorem floating_total : (floatingReading format hasher).Total :=
  fun _ _ _ => ⟨_, rfl⟩

/-- What the masks say. -/
def maskedReading (config : Masked) : Reading UInt64 where
  same a b := (a ||| b) &&& config.nanLike == 0 && a &&& config.compared == b &&& config.compared
  code key seed :=
    let plain := key &&& config.hashed
    .ok (if config.seeded then mix (plain ^^^ seed) else plain)

section Masked

variable {config : Masked} {a b key seed : UInt64} {env : KeyEnv MaskedState}

theorem masked_same : (maskedReading config).same a b = true ↔
    (a &&& config.nanLike = 0 ∧ b &&& config.nanLike = 0) ∧
      a &&& config.compared = b &&& config.compared := by
  have parts : (a ||| b) &&& config.nanLike = (a &&& config.nanLike) ||| (b &&& config.nanLike) :=
    UInt64.toBitVec_inj.mp BitVec.and_or_distrib_right
  simp only [maskedReading, Bool.and_eq_true, beq_iff_eq, parts, UInt64.or_eq_zero_iff]

/-- Unless the trap is sprung the answer is what the masks say. -/
theorem masked_equal : config.scheme.equal a b env = (match env.own.trap with
      | some 0 => .error "trap"
      | _ => .ok ((maskedReading config).same a b),
      { env with own := { env.own with
          trap := env.own.trap.map Nat.pred, equalCalls := env.own.equalCalls + 1 } }) := by
  obtain ⟨draws, refuse, trap, hashCalls, equalCalls⟩ := env
  rcases trap with _ | _ | n <;> rfl

theorem masked_hash (known : key &&& config.nanLike = 0) : config.scheme.hash key seed env =
    (.ok (if key &&& env.own.refuse != 0 then .error ⟨config.refusedType⟩
      else (maskedReading config).code key seed),
      { env with own := { env.own with hashCalls := env.own.hashCalls + 1 } }) := by
  have unfolded : config.scheme.hash key seed env =
      (if key &&& env.own.refuse != 0 then pure (.error ⟨config.refusedType⟩)
       else if key &&& config.nanLike != 0 then do return .ok (← KeyM.draw)
       else pure ((maskedReading config).code key seed) : KeyM MaskedState _)
      { env with own := { env.own with hashCalls := env.own.hashCalls + 1 } } := rfl
  rw [unfolded, known]
  split <;> rfl

theorem masked_coherent (within : config.hashed &&& config.compared = config.hashed) :
    (maskedReading config).Coherent where
  symm a b same := by
    rw [masked_same] at same ⊢
    exact ⟨same.1.symm, same.2.symm⟩
  trans a b c first second := by
    rw [masked_same] at first second ⊢
    exact ⟨⟨first.1.1, second.1.2⟩, first.2.trans second.2⟩
  alike a b seed same := by
    have alike : a &&& config.hashed = b &&& config.hashed := by
      rw [← within, UInt64.and_comm config.hashed, ← UInt64.and_assoc, ← UInt64.and_assoc,
        (masked_same.mp same).2]
    simp only [maskedReading, alike]

theorem masked_agrees (plain : config.traits.reflexive = true → config.nanLike = 0) :
    config.scheme.Agrees (maskedReading config) where
  judges {a b answer} := by
    rintro ⟨env, run⟩
    have judged : Ends (config.scheme.same a b) env
        (fun answer _ => answer = (maskedReading config).same a b) fun _ _ => True := by
      unfold KeyScheme.same
      rw [KeyM.ends_toAction, masked_equal]
      rcases env.own.trap with _ | _ | n <;> trivial
    exact judged.of_ok run
  hashes {key seed hash} known := by
    rintro ⟨env, run⟩
    have hashed : Ends (config.scheme.hashKey key seed) env
        (fun hash _ => (maskedReading config).code key seed = .ok hash) fun _ _ => True := by
      unfold KeyScheme.hashKey
      rw [ends_bind, KeyM.ends_toAction, masked_hash (masked_same.mp known).1.1]
      cases key &&& env.own.refuse != 0
      · rfl
      · trivial
    exact hashed.of_ok run
  reflexive reflexive key := by
    rw [masked_same, plain reflexive, UInt64.and_zero]
    exact ⟨⟨rfl, rfl⟩, rfl⟩

end Masked

end Key

end GradualMap
