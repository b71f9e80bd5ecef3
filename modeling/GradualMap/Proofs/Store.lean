import GradualMap.Proofs.Call

/-!
What a map is without its table. A `Store` answers calls from nothing but what is stored under each
key; `Step` says what one call answers and leaves. Only a call that shows all entries is free in one
thing, their order.
-/

namespace GradualMap

variable {σ K V ρ : Type}

structure Store (σ K V : Type) where
  /-- The entries of a state, in any order. -/
  Has : σ → List (Entry K V) → Prop
  empty : σ
  find : K → σ → Option (Entry K V)
  /-- Puts a value under a key, whether there is one or not. -/
  write : K → V → σ → σ
  /-- Changes the value under a key, if there is one. -/
  amend : K → (V → V) → σ → σ
  erase : K → σ → σ

def Entry.pair (entry : Entry K V) : K × V :=
  (entry.key, entry.value)

namespace Store

inductive Step (store : Store σ K V) : Call K V ρ → σ × ρ → Answer K V → σ × ρ → Prop
  | insert {key : K} {value : V} {state : σ} {own : ρ} :
      Step store (.insert key value) (state, own)
        (.value? ((store.find key state).map (·.value))) (store.write key value state, own)
  | overwrite {key : K} {default : StateM ρ V} {f : V → V} {state : σ} {own : ρ}
      {entry : Entry K V} (found : store.find key state = some entry) :
      Step store (.getOrInsert key default f) (state, own) (.value (f entry.value))
        (store.write key (f entry.value) state, own)
  | enter {key : K} {default : StateM ρ V} {f : V → V} {state : σ} {own : ρ}
      (missing : store.find key state = none) :
      Step store (.getOrInsert key default f) (state, own) (.value (f (default own).1))
        (store.write key (f (default own).1) state, (default own).2)
  | get {key : K} {state : σ} {own : ρ} :
      Step store (.get key) (state, own) (.value? ((store.find key state).map (·.value)))
        (state, own)
  | getPair {key : K} {state : σ} {own : ρ} :
      Step store (.getPair key) (state, own) (.pair? ((store.find key state).map Entry.pair))
        (state, own)
  | contains {key : K} {state : σ} {own : ρ} :
      Step store (.contains key) (state, own) (.holds (store.find key state).isSome) (state, own)
  | adjust {key : K} {f : V → V} {state : σ} {own : ρ} :
      Step store (.adjust key f) (state, own)
        (.value? ((store.find key state).map fun entry => f entry.value))
        (store.amend key f state, own)
  | remove {key : K} {state : σ} {own : ρ} :
      Step store (.remove key) (state, own) (.value? ((store.find key state).map (·.value)))
        (store.erase key state, own)
  | removePair {key : K} {state : σ} {own : ρ} :
      Step store (.removePair key) (state, own) (.pair? ((store.find key state).map Entry.pair))
        (store.erase key state, own)
  | extend {pairs : List (K × V)} {state : σ} {own : ρ} :
      Step store (.extend pairs) (state, own) .done
        (pairs.foldl (fun state pair => store.write pair.1 pair.2 state) state, own)
  | clear {state : σ} {own : ρ} : Step store .clear (state, own) .done (store.empty, own)
  | retain {f : K → V → StateM ρ (V × Bool)} {state state' : σ} {own own' : ρ}
      {order left : List (Entry K V)} (has : store.Has state order)
      (run : Keeps (calmly f) order own (.ok ()) left own') (has' : store.Has state' left) :
      Step store (.retain f) (state, own) .done (state', own')
  | sweep {writes : List (V → V)} {state state' : σ} {own : ρ} {order : List (Entry K V)}
      (has : store.Has state order)
      (has' : store.Has state' (Sweep.written writes order ++ order.drop writes.length)) :
      Step store (.sweep writes) (state, own)
        (.pairs ((Sweep.written writes order).map Entry.pair)) (state', own)
  | list {state : σ} {own : ρ} {order : List (Entry K V)} (has : store.Has state order) :
      Step store .list (state, own) (.pairs (order.map Entry.pair)) (state, own)
  | len {state : σ} {own : ρ} {order : List (Entry K V)} (has : store.Has state order) :
      Step store .len (state, own) (.count order.length) (state, own)

inductive Run (store : Store σ K V) :
    List (Call K V ρ) → σ × ρ → List (Answer K V) → σ × ρ → Prop
  | nil {state : σ × ρ} : Run store [] state [] state
  | cons {call : Call K V ρ} {calls : List (Call K V ρ)} {answer : Answer K V}
      {answers : List (Answer K V)} {before between after : σ × ρ}
      (step : Step store call before answer between) (run : Run store calls between answers after) :
      Run store (call :: calls) before (answer :: answers) after

/-- The store keeps at most one entry for keys that are the same, and finds and changes that. A
written key is kept as it was first stored, or replaced with each write. -/
structure Lawful (store : Store σ K V) (reading : Reading K) (replaces : Bool) : Prop where
  perm : ∀ {state : σ} {entries entries' : List (Entry K V)}, store.Has state entries →
    entries.Perm entries' → store.Has state entries'
  empty : store.Has store.empty []
  found : ∀ {state : σ} {key : K} {entry : Entry K V} {rest : List (Entry K V)},
    store.Has state (entry :: rest) → reading.same key entry.key = true →
    store.find key state = some entry ∧
    (∀ value, store.Has (store.write key value state)
      ({ key := if replaces then key else entry.key, value } :: rest)) ∧
    (∀ f, store.Has (store.amend key f state) ({ entry with value := f entry.value } :: rest)) ∧
    store.Has (store.erase key state) rest
  missing : ∀ {state : σ} {key : K} {entries : List (Entry K V)}, store.Has state entries →
    (∀ entry ∈ entries, reading.same key entry.key = false) →
    store.find key state = none ∧
    (∀ value, store.Has (store.write key value state) ({ key, value } :: entries)) ∧
    (∀ f, store.Has (store.amend key f state) entries) ∧
    store.Has (store.erase key state) entries
  /-- Values may be given anew, and entries left out. -/
  renewed : ∀ {state : σ} {entries entries' : List (Entry K V)}, store.Has state entries →
    (entries'.map (·.key)).Sublist (entries.map (·.key)) → ∃ state', store.Has state' entries'

end Store

end GradualMap
