import GradualMap.Proofs.Effort

/-!
Resizes end. Each write takes the one in flight forward, its cursor by one old chain or more, and no
other call holds it up or takes it back. It is over after as many writes as there are old chains
left, whatever keys they write and whatever is called in between.
-/

namespace GradualMap

open GradualMap.Action

variable {K V δ ρ : Type}

/-- The event tells that a resize was completed; `sameSize` tells which kind it was. -/
def Event.Completes (sameSize : Bool) : Event → Prop
  | .growthComplete _ _ same => same = sameSize
  | _ => False

/-- The event tells that a resize was completed or called off. -/
def Event.Closes (sameSize : Bool) : Event → Prop
  | .cleared _ => True
  | event => event.Completes sameSize

theorem Event.Completes.closes {sameSize : Bool} {event : Event} (h : event.Completes sameSize) :
    event.Closes sameSize := by
  cases event with
  | growthComplete => exact h
  | _ => exact h.elim

/-- The first event since `log` that tells of a resize is one that closes it. -/
structure Closed (closes : Event → Prop) (log log' : List Event) : Prop where
  told : ∃ later event earlier, log' = later ++ event :: (earlier ++ log) ∧ closes event ∧
    ∀ other ∈ earlier, other.marks = false

/-- How a resize in flight fares. It goes on, with its cursor further by `gain` or more, or it is
over. -/
inductive Resize.Fares (resize : Resize K V) (closes : Event → Prop) (gain : Nat)
    (log : List Event) (after : Table K V × List Event) : Prop
  | onward {resize' : Resize K V} {news : List Event} (growing : after.1.resize = some resize')
      (size : resize'.array.size = resize.array.size)
      (sameSize : resize'.sameSize = resize.sameSize)
      (further : resize.cursor + gain ≤ resize'.cursor)
      (bound : resize'.cursor < resize.array.size) (told : after.2 = news ++ log)
      (quiet : ∀ event ∈ news, event.marks = false)
  | ended (closed : Closed closes log after.2)

namespace Closed

variable {closes : Event → Prop} {log log' log'' : List Event}

theorem later (closed : Closed closes log log') (grows : log' <:+ log'') :
    Closed closes log log'' := by
  obtain ⟨later, event, earlier, rfl, h, quiet⟩ := closed.told
  obtain ⟨more, rfl⟩ := grows
  exact ⟨more ++ later, event, earlier, by simp, h, quiet⟩

theorem since {news : List Event} (quiet : ∀ event ∈ news, event.marks = false)
    (closed : Closed closes (news ++ log) log') : Closed closes log log' := by
  obtain ⟨later, event, earlier, rfl, h, quiet'⟩ := closed.told
  exact ⟨later, event, earlier ++ news, by simp, h, List.forall_mem_append.mpr ⟨quiet', quiet⟩⟩

theorem mono {closes' : Event → Prop} (closed : Closed closes log log')
    (weaker : ∀ event, closes event → closes' event) : Closed closes' log log' := by
  obtain ⟨later, event, earlier, told, h, quiet⟩ := closed.told
  exact ⟨later, event, earlier, told, weaker event h, quiet⟩

end Closed

namespace Resize.Fares

variable {resize : Resize K V} {closes : Event → Prop} {gain : Nat} {log : List Event}
  {between after : Table K V × List Event}

theorem mono {closes' : Event → Prop} (fares : resize.Fares closes gain log after)
    (weaker : ∀ event, closes event → closes' event) : resize.Fares closes' gain log after := by
  cases fares with
  | onward growing size sameSize further bound told quiet =>
    exact .onward growing size sameSize further bound told quiet
  | ended closed => exact .ended (closed.mono weaker)

/-- A resize that goes on goes on from where it stands. -/
theorem trans {gain' : Nat} (fares : resize.Fares closes gain log between)
    (grows : between.2 <:+ after.2)
    (next : ∀ resize', between.1.resize = some resize' → resize'.sameSize = resize.sameSize →
      resize'.Fares closes gain' between.2 after) :
    resize.Fares closes (gain + gain') log after := by
  cases fares with
  | @onward resize' news growing size sameSize further bound told quiet =>
    cases next resize' growing sameSize with
    | @onward _ news' growing' size' sameSize' further' bound' told' quiet' =>
      refine .onward growing' (size'.trans size) (sameSize'.trans sameSize) (by omega)
        (size ▸ bound') ?_ (List.forall_mem_append.mpr ⟨quiet', quiet⟩)
      rw [told', told, List.append_assoc]
    | ended closed => exact .ended ((told ▸ closed).since quiet)
  | ended closed => exact .ended (closed.later grows)

end Resize.Fares

namespace Table

variable {scheme : KeyScheme K δ} {table : Table K V} {resize : Resize K V}
  {before after : Table K V × List Event}

theorem Turn.grows {clears : Prop} (turn : Turn clears before after) : before.2 <:+ after.2 := by
  cases turn with
  | aside news quiet alike => exact List.suffix_append news _
  | onward => exact List.suffix_refl _
  | started => exact List.suffix_cons _ _
  | finished => exact List.suffix_cons _ _
  | cleared => exact List.suffix_cons _ _

theorem Turns.grows (turns : Turns before after) : before.2 <:+ after.2 := by
  induction turns with
  | refl => exact List.suffix_refl _
  | tail _ turn ih => exact ih.trans turn.1.grows

theorem Lull.grows (lull : Lull before after) : before.2 <:+ after.2 := by
  obtain ⟨news, told, _⟩ := lull.news
  exact told ▸ List.suffix_append news _

theorem Bookkept.fares (books : before.1.Bookkept) (closes : Event → Prop)
    (growing : before.1.resize = some resize) : resize.Fares closes 0 before.2 before :=
  .onward growing rfl rfl (Nat.le_refl _) (books.resizing resize growing).cursor_lt
    (List.nil_append _).symm (List.forall_mem_nil _)

theorem Turn.fares {clears : Prop} (turn : Turn clears before after) (books : after.1.Bookkept)
    (growing : before.1.resize = some resize) :
    resize.Fares (Event.Closes resize.sameSize) 0 before.2 after := by
  cases turn with
  | aside news quiet alike =>
    simp only at growing
    rw [growing] at alike
    generalize growing' : Table.resize _ = resizing at alike
    cases alike with
    | some alike =>
      refine .onward growing' alike.size alike.sameSize (Nat.le_of_eq alike.cursor.symm) ?_ rfl quiet
      exact alike.size ▸ (books.resizing _ growing').cursor_lt
  | onward growing₀ growing' onward =>
    obtain rfl := Option.some.inj (growing.symm.trans growing₀)
    exact .onward growing' onward.size onward.sameSize onward.cursor_le
      (onward.size ▸ (books.resizing _ growing').cursor_lt) (List.nil_append _).symm
      (List.forall_mem_nil _)
  | started idle fresh =>
    simp only at growing
    rw [growing] at idle
    cases idle
  | finished growing₀ moved idle =>
    obtain rfl := Option.some.inj (growing.symm.trans growing₀)
    exact .ended ⟨[], _, [], rfl, rfl, List.forall_mem_nil _⟩
  | cleared called idle => exact .ended ⟨[], _, [], rfl, trivial, List.forall_mem_nil _⟩

/-- Whatever a table does, it does not hold up the resize in flight. -/
theorem Turns.fares (books : before.1.Bookkept) (turns : Turns before after)
    (growing : before.1.resize = some resize) :
    resize.Fares (Event.Closes resize.sameSize) 0 before.2 after := by
  induction turns with
  | refl => exact books.fares _ growing
  | tail _ turn ih =>
    change resize.Fares _ (0 + 0) _ _
    refine ih.trans turn.1.grows fun resize' growing' sameSize => ?_
    exact sameSize ▸ turn.1.fares turn.2 growing'

theorem Shift.growing (shift : Shift scheme before after) :
    ∃ resize, before.1.resize = some resize := by
  cases shift with
  | move growing => exact ⟨_, growing⟩
  | advance growing => exact ⟨_, growing⟩
  | finish growing => exact ⟨_, growing⟩

/-- What shifts come to: the resize goes on, or its last shift ends it. -/
theorem Shifts.follow (shifts : Shifts scheme before after)
    (growing : before.1.resize = some resize) :
    (∃ resize', after.1.resize = some resize' ∧ resize'.sameSize = resize.sameSize ∧
      after.2 = before.2) ∨
    after.1.resize = none ∧ ∃ event : Event, event.Completes resize.sameSize ∧
      after.2 = event :: before.2 := by
  induction shifts with
  | refl => exact .inl ⟨resize, growing, rfl, rfl⟩
  | tail _ shift ih =>
    rcases ih with ⟨resize', growing', sameSize, log⟩ | ⟨idle, _⟩
    · cases shift with
      | move growing₀ bound waits carried dealt =>
        obtain rfl := Option.some.inj (growing'.symm.trans growing₀)
        obtain ⟨array, growing'', _⟩ := dealt.vacated _ growing'
        exact .inl ⟨_, growing'', sameSize, log⟩
      | advance growing₀ ahead bound passed =>
        obtain rfl := Option.some.inj (growing'.symm.trans growing₀)
        exact .inl ⟨_, rfl, sameSize, log⟩
      | finish growing₀ all =>
        obtain rfl := Option.some.inj (growing'.symm.trans growing₀)
        exact .inr ⟨rfl, .growthComplete _ _ _, sameSize, congrArg _ log⟩
    · obtain ⟨resize', growing'⟩ := shift.growing
      rw [idle] at growing'
      cases growing'

theorem Stint.grows (stint : Stint scheme before after) : before.2 <:+ after.2 := by
  cases stint with
  | worked ahead sound worked rest =>
    exact (ahead.grows.trans (worked.shifts.turns sound).grows).trans rest.grows

/-- A resize that is taken forward gains one old chain or more, or is completed. -/
theorem Stint.fares (stint : Stint scheme before after) (growing : before.1.resize = some resize) :
    resize.Fares (Event.Completes resize.sameSize) 1 before.2 after := by
  cases stint with
  | @worked _ start between ahead sound worked rest =>
    obtain ⟨news, told, quiet⟩ := ahead.news
    obtain ⟨news', told', quiet'⟩ := rest.news
    have growing₀ : start.1.resize = some resize := ahead.resize.trans growing
    rcases worked.shifts.follow growing₀ with
      ⟨resize', growing', sameSize, log⟩ | ⟨idle, event, completes, log⟩
    · obtain ⟨_, growing₁, size, _, further⟩ := worked.further resize' growing'
      obtain rfl := Option.some.inj (growing₀.symm.trans growing₁)
      have sound' := (worked.shifts.sound (Rules.any_heldBy scheme) sound).1
      refine .onward (rest.resize.trans growing') size sameSize further
        (size ▸ (sound'.resizing resize' growing').cursor_lt) ?_
        (List.forall_mem_append.mpr ⟨quiet', quiet⟩)
      rw [told', log, told, List.append_assoc]
    · refine .ended ⟨news', event, news, ?_, completes, quiet⟩
      rw [told', log, told]

theorem Effort.fares {inserts : Bool} (effort : Effort scheme inserts before after)
    (growing : before.1.resize = some resize) :
    resize.Fares (Event.Completes resize.sameSize) 1 before.2 after := by
  cases effort with
  | once stint => exact stint.fares growing
  | twice _ stint sound allocated idle again =>
    cases stint.fares growing with
    | onward growing' =>
      rw [idle] at growing'
      cases growing'
    | ended closed => exact .ended (closed.later ((List.suffix_cons _ _).trans again.grows))

end Table

namespace Call

variable {scheme : KeyScheme K δ} {map : Map K V} {resize : Resize K V} {env : Env δ} {own : ρ}

theorem attempt_grows (reachable : Reachable scheme map) (call : Call K V ρ) :
    Leads (call.attempt scheme) ((map, env), own) fun s => env.log <:+ s.1.2.log := by
  obtain ⟨sound, free⟩ := reachable.intact
  exact (call.attempt_leads sound free).mono fun s led => (led.path.turns sound).grows

/-- Whatever is called, the resize in flight goes on or is over. -/
theorem attempt_fares (reachable : Reachable scheme map) (growing : map.table.resize = some resize)
    (call : Call K V ρ) :
    Leads (call.attempt scheme) ((map, env), own) fun s =>
      resize.Fares (Event.Closes resize.sameSize) 0 env.log (s.1.1.table, s.1.2.log) := by
  obtain ⟨sound, free⟩ := reachable.intact
  exact (call.attempt_leads sound free).mono fun s led =>
    (led.path.turns sound).fares sound.bookkept growing

/-- A write takes the resize in flight forward, or completes it. -/
theorem Works.fares (reachable : Reachable scheme map) (growing : map.table.resize = some resize)
    {call : Call K V ρ} (works : call.Works scheme map env) :
    Leads (call.attempt scheme) ((map, env), own) fun s =>
      resize.Fares (Event.Completes resize.sameSize) 1 env.log (s.1.1.table, s.1.2.log) := by
  obtain ⟨sound, free⟩ := reachable.intact
  refine (attempt_attends sound reachable.estimated.roomy free works.writes).mono fun s attended => ?_
  cases attended with
  | effort _ effort => exact effort.fares growing
  | still idle => exact absurd works idle

end Call

/-- Calls one after the other, none of which aborts, in surroundings of their own apart from the
events. Of the calls, `n` at least are writes that take a resize in flight forward. -/
inductive Course (scheme : KeyScheme K δ) (start : Map K V × List Event) :
    Nat → Map K V × List Event → Prop
  | start : Course scheme start 0 start
  | write {n : Nat} {before after : Map K V} {ρ : Type} {env env' : Env δ} {own own' : ρ}
      {result : Except Failure (Answer K V)} (call : Call K V ρ)
      (course : Course scheme start n (before, env.log)) (works : call.Works scheme before env)
      (run : call.attempt scheme ((before, env), own) = (result, ((after, env'), own')))
      (calm : ∀ cause, result ≠ .error (.abort cause)) :
      Course scheme start (n + 1) (after, env'.log)
  | other {n : Nat} {before after : Map K V} {ρ : Type} {env env' : Env δ} {own own' : ρ}
      {result : Except Failure (Answer K V)} (call : Call K V ρ)
      (course : Course scheme start n (before, env.log))
      (run : call.attempt scheme ((before, env), own) = (result, ((after, env'), own')))
      (calm : ∀ cause, result ≠ .error (.abort cause)) :
      Course scheme start n (after, env'.log)

namespace Course

variable {scheme : KeyScheme K δ} {map : Map K V} {log : List Event} {n : Nat}
  {after : Map K V × List Event} {resize : Resize K V}

theorem reachable (course : Course scheme (map, log) n after) (reachable : Reachable scheme map) :
    Reachable scheme after.1 := by
  induction course with
  | start => exact reachable
  | write call _ _ run calm ih => exact .called call ih run calm
  | other call _ run calm ih => exact .called call ih run calm

theorem fares (course : Course scheme (map, log) n after) (reachable : Reachable scheme map)
    (growing : map.table.resize = some resize) :
    resize.Fares (Event.Closes resize.sameSize) n log (after.1.table, after.2) := by
  induction course with
  | start =>
    have books : (map.table, log).1.Bookkept := reachable.intact.1.bookkept
    exact books.fares _ growing
  | write call course works run calm ih =>
    have reachable' := course.reachable reachable
    refine ih.trans ((call.attempt_grows reachable').after run calm) ?_
    intro resize' growing' sameSize
    have fares := (works.fares reachable' growing').after run calm
    exact sameSize ▸ fares.mono fun _ completes => completes.closes
  | other call course run calm ih =>
    have reachable' := course.reachable reachable
    change resize.Fares _ (_ + 0) _ _
    refine ih.trans ((call.attempt_grows reachable').after run calm) ?_
    intro resize' growing' sameSize
    exact sameSize ▸ (call.attempt_fares reachable' growing').after run calm

/-- As many writes as there are old chains left are the end of a resize. -/
theorem closed (course : Course scheme (map, log) n after) (reachable : Reachable scheme map)
    (growing : map.table.resize = some resize) (enough : resize.array.size - resize.cursor ≤ n) :
    Closed (Event.Closes resize.sameSize) log after.2 := by
  cases course.fares reachable growing with
  | onward growing' size sameSize further bound => omega
  | ended closed => exact closed

end Course

/-- A key that has hashed under the seed is not routed now. -/
def KeyScheme.Stalls (scheme : KeyScheme K δ) (failure : Failure) : Prop :=
  ∃ key hash routing top env, scheme.Hashes key routing.seed hash ∧
    (Routing.route routing scheme top key env).1 = .error failure

/-- Every stored key has hashed under the seed. -/
def Rules.hashed (scheme : KeyScheme K δ) : Rules K where
  admits seed _ _ _ key := ∃ hash, scheme.Hashes key seed hash
  exact := True

theorem Rules.hashed_heldBy (scheme : KeyScheme K δ) :
    (Rules.hashed scheme).HeldBy scheme scheme.Stalls where
  enters hashes _ := ⟨_, hashes⟩
  splits {key seed size index top} admits _ env := by
    obtain ⟨hash, hashes⟩ := admits
    refine ends_run.mono (fun _ _ _ => ⟨hash, hashes⟩) fun failure after run => ?_
    exact ⟨key, hash, ⟨seed, false, size⟩, top, env, hashes, congrArg Prod.fst run⟩

theorem Reachable.hashed {scheme : KeyScheme K δ} {map : Map K V}
    (reachable : Reachable scheme map) : map.table.Sound (Rules.hashed scheme) :=
  reachable.keeps (fun _ fresh => (fresh _).sound.table)
    fun _ step sound => step.sound (Rules.hashed_heldBy scheme) sound

end GradualMap
