import Trampoline.Proofs.Evaluation.Successions
import Trampoline.Proofs.Memo.Bindings
import Trampoline.Proofs.Memo.Keys
import Trampoline.Proofs.Promises.Sessions

/-!
# What memoized functions answer

A memoized function looks up the key of its forced arguments among the entries of its cache, and
adds an entry when it finds none. Entries only come to a cache, so the place of an entry, the number
of those that are older, tells which one it is at any time. A call that is answered from an entry
has the same key as the call that wrote it.
-/

namespace Trampoline

open Exec

/-! ## Caches -/

/-- The entries of a cache, newest first. -/
def Machine.entries (m : Machine) (cache : Nat) : List CacheEntry := m.caches.getD cache []

/-- The place of the newest entry with the key: how many entries are older. -/
def entryPlace? (key : List MemoKey) : List CacheEntry -> Option Nat
  | [] => none
  | entry :: older =>
    if sameKeys entry.key key then some older.length else entryPlace? key older

/-- The place of the newest entry. -/
def newestPlace? : List CacheEntry -> Option Nat
  | [] => none
  | _ :: older => some older.length

/-- The place of an entry counts the older ones, so newer entries do not move it. -/
theorem entryPlace?_eq_some {key : List MemoKey} {place : Nat} : ∀ {entries : List CacheEntry},
    entryPlace? key entries = some place -> ∃ newer entry older,
      entries = newer ++ entry :: older ∧ older.length = place ∧ entry.key = key
  | first :: rest, found => by
    rw [entryPlace?] at found
    split at found
    · rename_i same
      cases found
      exact ⟨[], first, rest, rfl, rfl, sameKeys_iff.mp same⟩
    · obtain ⟨newer, entry, older, rfl, length, same⟩ := entryPlace?_eq_some found
      exact ⟨first :: newer, entry, older, rfl, length, same⟩

/-- The place says whether there is an answer, as the function looks it up. -/
theorem find?_of_entryPlace? {key : List MemoKey} : ∀ {entries : List CacheEntry},
    (entries.find? fun entry => sameKeys entry.key key).isSome = (entryPlace? key entries).isSome
  | [] => rfl
  | first :: rest => by
    rw [entryPlace?, List.find?_cons]
    cases sameKeys first.key key with
    | true => rfl
    | false => exact find?_of_entryPlace?

/-- Entries are only added, as the newest ones. -/
def Machine.Caches (m m' : Machine) : Prop :=
  ∀ cache, ∃ newer, m'.entries cache = newer ++ m.entries cache

namespace Machine.Caches

variable {m middle m' : Machine}

theorem of_eq (same : m'.caches = m.caches) : m.Caches m' := by
  intro cache
  exact ⟨[], by rw [entries, entries, same, List.nil_append]⟩

theorem trans (first : m.Caches middle) (second : middle.Caches m') : m.Caches m' := by
  intro cache
  obtain ⟨newer, same⟩ := first cache
  obtain ⟨newest, same'⟩ := second cache
  exact ⟨newest ++ newer, by rw [same', same, List.append_assoc]⟩

/-- No effect takes an entry away or changes one. -/
theorem effect (m : Machine) (effect : Effect) : m.Caches (effect.on m) := by
  cases effect with
  | newCache =>
    intro cache
    refine ⟨[], ?_⟩
    simp only [Effect.on, entries, Array.getD_eq_getD_getElem?, Array.getElem?_push]
    split
    · rename_i last
      simp [last]
    · rfl
  | remember other key value =>
    intro cache
    simp only [Effect.on, entries, Array.getD_eq_getD_getElem?, Array.getElem?_modify]
    split
    · rename_i same
      subst same
      cases m.caches[other]? with
      | none => exact ⟨[], rfl⟩
      | some entries => exact ⟨[⟨key, value⟩], rfl⟩
    · exact ⟨[], rfl⟩
  | _ => exact of_eq rfl

/-- Entries stay through everything a machine does. -/
theorem standing : Machine.Standing Caches where
  refl _ := of_eq rfl
  trans := trans
  effect m _ := effect m _
  guarded result kept :=
    holds_guardedState (fun _ _ _ kept => kept.trans (of_eq rfl)) _ result kept
  leaves _ mark result :=
    holds_guardedState (fun _ _ _ kept => kept.trans (of_eq rfl)) mark result (of_eq rfl)

end Machine.Caches

/-- Remembering adds an entry on top of its cache if there is such a cache. -/
theorem Machine.entries_remember (m : Machine) (cache : Nat) (key : List MemoKey) (value : Value) :
    ((Effect.remember cache key value).on m).entries cache =
      if cache < m.caches.size then ⟨key, value⟩ :: m.entries cache else [] := by
  simp only [Effect.on, entries, Array.getD_eq_getD_getElem?, Array.getElem?_modify, if_true]
  split
  · rename_i known
    simp [known]
  · rename_i unknown
    simp [unknown]

/-! ## Calls of memoized functions -/

/-- What the call of a memoized function looks up. -/
structure Lookup where
  inner : Callable
  cache : Nat
  /-- The arguments, forced. -/
  args : List Value
  kwargs : Kwargs
  key : List MemoKey
  /-- The machine by then. -/
  machine : Machine

/-- The place of the entry that answers. -/
def Lookup.place? (lookup : Lookup) : Option Nat :=
  entryPlace? lookup.key (lookup.machine.entries lookup.cache)

namespace Call

/-- What the call looks up, if it is one of a memoized function whose arguments can be forced and
have keys. -/
def lookup? : Call -> Option Lookup
  | ⟨n + 1, .apply (.memoized inner cache) args kwargs, m⟩ =>
    match forceKeys n args m with
    | some (.ok (args, argKeys), m) =>
      match forceKwargKeys n kwargs m with
      | some (.ok (kwargs, kwargKeys), m) =>
        some ⟨inner, cache, args, kwargs, argKeys ++ kwargKeys, m⟩
      | _ => none
    | _ => none
  | _ => none

/-- The place of the entry that answers the call. -/
def answered? (call : Call) : Option Nat := call.lookup?.bind Lookup.place?

/-- The place of the entry that the call writes when it has found none and succeeds. -/
def wrote? (call : Call) : Option Nat :=
  match call.lookup? with
  | none => none
  | some lookup =>
    match lookup.place?, call.task.run call.fuel call.machine with
    | none, some (.ok _, last) => newestPlace? (last.entries lookup.cache)
    | _, _ => none

variable {call : Call} {lookup : Lookup}

/-- A lookup is the application of a memoized callable, once its arguments have been forced. -/
theorem lookup?_eq_some (looks : call.lookup? = some lookup) :
    ∃ n args kwargs m argKeys middle kwargKeys,
      call = ⟨n + 1, .apply (.memoized lookup.inner lookup.cache) args kwargs, m⟩ ∧
      forceKeys n args m = some (.ok (lookup.args, argKeys), middle) ∧
      forceKwargKeys n kwargs middle = some (.ok (lookup.kwargs, kwargKeys), lookup.machine) ∧
      lookup.key = argKeys ++ kwargKeys := by
  unfold lookup? at looks
  split at looks
  · split at looks
    · rename_i forces
      split at looks
      · rename_i forces'
        cases looks
        exact ⟨_, _, _, _, _, _, _, rfl, forces, forces', rfl⟩
      · cases looks
    · cases looks
  · cases looks

/-- The key is that of the arguments. -/
theorem key_eq (looks : call.lookup? = some lookup) :
    memoKeys? (lookup.args ++ lookup.kwargs.map Value.pair) = some lookup.key := by
  obtain ⟨n, args, kwargs, m, argKeys, middle, kwargKeys, -, forces, forces', same⟩ :=
    lookup?_eq_some looks
  rw [same]
  exact memoKeys?_append (forceKeys_keys forces) (forceKwargKeys_keys forces')

/-- How the call goes on when it has looked its key up. -/
theorem run_eq {n : Nat} {args : List Value} {kwargs : Kwargs} {m : Machine}
    (looks : Call.lookup? ⟨n + 1, .apply (.memoized lookup.inner lookup.cache) args kwargs, m⟩ =
      some lookup) :
    Trampoline.apply (n + 1) (.memoized lookup.inner lookup.cache) args kwargs m =
      match (lookup.machine.entries lookup.cache).find? fun entry =>
        sameKeys entry.key lookup.key with
      | some entry => some (.ok entry.value, lookup.machine)
      | none => (do
          let value ← Trampoline.call n lookup.inner lookup.args lookup.kwargs
          Run.remember lookup.cache lookup.key value
          pure value : Run Value) lookup.machine := by
  obtain ⟨_, _, _, _, argKeys, middle, kwargKeys, ⟨⟩, forces, forces', same⟩ :=
    lookup?_eq_some looks
  rw [Trampoline.apply]
  refine (bind_apply forces _).trans ((bind_apply forces' _).trans ?_)
  simp only [← same]
  have reads : Run.cached? lookup.cache lookup.key lookup.machine =
      some (.ok (((lookup.machine.entries lookup.cache).find? fun entry =>
        sameKeys entry.key lookup.key).map CacheEntry.value), lookup.machine) := rfl
  refine (bind_apply reads _).trans ?_
  cases (lookup.machine.entries lookup.cache).find? fun entry =>
    sameKeys entry.key lookup.key <;> rfl

/-- A call that is answered ends on the machine on which it has looked its key up, which has an
entry with its key at the place. -/
theorem ends_of_answered {place : Nat} (looks : call.lookup? = some lookup)
    (answered : call.answered? = some place) :
    (∃ outcome, call.Ends outcome ∧ outcome.2 = lookup.machine) ∧
      ∃ newer entry older, lookup.machine.entries lookup.cache = newer ++ entry :: older ∧
        older.length = place ∧ entry.key = lookup.key := by
  have found : lookup.place? = some place := by simpa [answered?, looks] using answered
  refine ⟨?_, entryPlace?_eq_some found⟩
  obtain ⟨n, args, kwargs, m, -, -, -, rfl, -⟩ := lookup?_eq_some looks
  have hit := @find?_of_entryPlace? lookup.key (lookup.machine.entries lookup.cache)
  rw [← Lookup.place?, found] at hit
  obtain ⟨entry, known⟩ := Option.isSome_iff_exists.mp hit
  have ends := run_eq looks
  rw [known] at ends
  exact ⟨_, ends, rfl⟩

/-- A call that writes an entry ends on a machine with the entry at the place, under its key. -/
theorem ends_of_wrote {place : Nat} (looks : call.lookup? = some lookup)
    (wrote : call.wrote? = some place) : ∃ outcome, call.Ends outcome ∧
      ∃ entry older, outcome.2.entries lookup.cache = entry :: older ∧ older.length = place ∧
        entry.key = lookup.key := by
  obtain ⟨n, args, kwargs, m, -, -, -, rfl, -⟩ := lookup?_eq_some looks
  simp only [wrote?, looks] at wrote
  split at wrote
  · rename_i value last missing ends
    have miss := @find?_of_entryPlace? lookup.key (lookup.machine.entries lookup.cache)
    rw [← Lookup.place?, missing, Option.isSome_none, Option.isSome_eq_false_iff,
      Option.isNone_iff_eq_none] at miss
    have goes := run_eq looks
    rw [miss] at goes
    obtain ⟨answer, middle, -, goes⟩ := bind_eq_ok.mp (goes.symm.trans ends)
    cases goes
    have written := Machine.entries_remember middle lookup.cache lookup.key value
    replace wrote :
      newestPlace? (((Effect.remember lookup.cache lookup.key value).on middle).entries
      lookup.cache) = some place := wrote
    by_cases known : lookup.cache < middle.caches.size
    · rw [if_pos known] at written
      rw [written] at wrote
      exact ⟨_, ends, _, _, written, Option.some.inj wrote, rfl⟩
    · rw [written, if_neg known] at wrote
      cases wrote
  · cases wrote

end Call

/-! ## Who is answered by whom -/

/-- In any session, when one call of a memoized function is answered from the entry that another
call has written, both have the same key: they are the same call, or what one gives in the end of
its positional arguments are pairs that the other gives in the beginning of its keyword arguments.
With as many positional arguments they bind every parameter of the function to the same value. -/
theorem history_answers {n : Nat} {operations : List Operation} {m : Machine} {first second : Call}
    (member : first ∈ history n operations m) (member' : second ∈ history n operations m)
    {lookup lookup' : Lookup} (looks : first.lookup? = some lookup)
    (looks' : second.lookup? = some lookup') (cache : lookup'.cache = lookup.cache) {place : Nat}
    (wrote : first.wrote? = some place) (answered : second.answered? = some place) :
    SharedKey lookup.args lookup'.args lookup.kwargs lookup'.kwargs ∧
      (lookup.args.length = lookup'.args.length -> ∀ function : Function,
        ∀ param ∈ function.signature.params, ∀ env later later',
          function.bound env lookup.args lookup.kwargs later param =
            function.bound env lookup'.args lookup'.kwargs later' param) := by
  obtain ⟨outcome, ends, entry, older, entries, length, key⟩ := Call.ends_of_wrote looks wrote
  obtain ⟨⟨outcome', ends', last⟩, newer, entry', older', entries', length', key'⟩ :=
    Call.ends_of_answered looks' answered
  have ordered := Machine.Caches.standing.ends member member' outcome outcome' ends ends'
  have same : entry = entry' := by
    have count : older.length = older'.length := length.trans length'.symm
    rw [last] at ordered
    rcases ordered with later | later
    · obtain ⟨added, grown⟩ := later lookup.cache
      rw [← cache, entries', cache, entries] at grown
      exact (List.cons.inj (List.append_inj_right' grown (by simp [count]))).1.symm
    · obtain ⟨added, grown⟩ := later lookup.cache
      rw [entries, ← cache, entries', ← List.append_assoc] at grown
      exact (List.cons.inj
        (List.append_inj_right' (show [] ++ _ = _ from grown) (by simp [count]))).1
  have shared : SharedKey lookup.args lookup'.args lookup.kwargs lookup'.kwargs := by
    refine sharedKey_of_memoKeys? (Call.key_eq looks) ?_
    rw [← key, same, key']
    exact Call.key_eq looks'
  refine ⟨shared, fun count function param isParam env later later' => ?_⟩
  obtain ⟨args, kwargs⟩ := shared.eq count
  rw [args, kwargs]
  exact function.bound_eq env _ _ isParam later later'

/-! ### Calls in two programs -/

/-- What is told of the calls of memoized functions below. -/
structure MemoReport where
  cache : Nat
  wrote : Option Nat
  answered : Option Nat
  /-- The type of what the parameter is bound to. -/
  bound : Option ValueType
  deriving DecidableEq

/-- The type of what the parameter `x` is bound to in the call, if a closure is called. -/
def Lookup.boundType (lookup : Lookup) : Option ValueType :=
  match lookup.inner with
  | .closure _ function env =>
    (function.bound env lookup.args lookup.kwargs lookup.machine "x").map Value.type
  | _ => none

/-- The report on a call of a memoized function. -/
def Call.report? (call : Call) : Option MemoReport :=
  call.lookup?.map fun lookup => ⟨lookup.cache, call.wrote?, call.answered?, lookup.boundType⟩

/-- The reports on the calls that a program makes. -/
def memoReports (source : String) : Option (List MemoReport) :=
  ((Program.ofText source).transform .default []).toOption.map fun transformed =>
    (history 10 [.run transformed.program] (.start false)).filterMap Call.report?

/-- What is reported of a program is found in the history of its run. -/
theorem memoReports_eq_some {source : String} {reports : List MemoReport}
    (told : memoReports source = some reports) : ∃ transformed,
      (Program.ofText source).transform .default [] = .ok transformed ∧ ∀ report ∈ reports,
        ∃ call ∈ history 10 [.run transformed.program] (.start false), ∃ lookup,
          call.lookup? = some lookup ∧ lookup.cache = report.cache ∧ call.wrote? = report.wrote ∧
            call.answered? = report.answered ∧ lookup.boundType = report.bound := by
  obtain ⟨transformed, succeeds, rfl⟩ := Option.map_eq_some_iff.mp told
  refine ⟨transformed, ?_, fun report member => ?_⟩
  · cases ends : (Program.ofText source).transform .default [] with
    | error error => simp [ends, Except.toOption] at succeeds
    | ok other => simpa [ends, Except.toOption] using succeeds
  · obtain ⟨call, inside, reported⟩ := List.mem_filterMap.mp member
    obtain ⟨lookup, looks, rfl⟩ := Option.map_eq_some_iff.mp reported
    exact ⟨call, inside, lookup, looks, rfl, rfl, rfl, rfl⟩

/-- A memoized function that is called twice with the same argument. -/
def repeatedCall : String := "(defn f (x) :decorators (memoize) x) (f 1) (f 1)"

/-- A call that is made twice is an instance: the second is answered from the entry of the first. -/
theorem repeatedCall_answered : ∃ transformed,
    (Program.ofText repeatedCall).transform .default [] = .ok transformed ∧
      ∃ first ∈ history 10 [.run transformed.program] (.start false),
      ∃ second ∈ history 10 [.run transformed.program] (.start false), ∃ lookup lookup' place,
        first.lookup? = some lookup ∧ second.lookup? = some lookup' ∧
        lookup'.cache = lookup.cache ∧ first.wrote? = some place ∧ second.answered? = some place ∧
        SharedKey lookup.args lookup'.args lookup.kwargs lookup'.kwargs := by
  have told : memoReports repeatedCall =
      some [⟨0, some 0, none, some .int⟩, ⟨0, none, some 0, some .int⟩] := by
    rw [memoReports, Program.ofText, repeatedCall, Program.parse_ofList]
    decide +kernel
  obtain ⟨transformed, succeeds, calls⟩ := memoReports_eq_some told
  obtain ⟨first, member, lookup, looks, cache, wrote, -⟩ := calls _ List.mem_cons_self
  obtain ⟨second, member', lookup', looks', cache', -, answered, -⟩ :=
    calls _ (List.mem_cons_of_mem _ List.mem_cons_self)
  have same := cache'.trans cache.symm
  refine ⟨transformed, succeeds, first, member, second, member', lookup, lookup', 0, looks, looks',
    same, wrote, answered, ?_⟩
  exact (history_answers member member' looks looks' same wrote answered).1

/-- A memoized function that is called with a pair and then with the same pair as a keyword
argument. -/
def collidingCalls : String := "(defn f (x) :decorators (memoize) x) (f (tuple \"x\" 1)) (f :x 1)"

/-- The second call is answered from the entry of the first, although the calls bind the parameter
to different values. -/
theorem collidingCalls_answered : ∃ transformed,
    (Program.ofText collidingCalls).transform .default [] = .ok transformed ∧
      ∃ first ∈ history 10 [.run transformed.program] (.start false),
      ∃ second ∈ history 10 [.run transformed.program] (.start false), ∃ lookup lookup' place,
        first.lookup? = some lookup ∧ second.lookup? = some lookup' ∧
        lookup'.cache = lookup.cache ∧ first.wrote? = some place ∧ second.answered? = some place ∧
        lookup.boundType = some .tuple ∧ lookup'.boundType = some .int := by
  have told : memoReports collidingCalls =
      some [⟨0, some 0, none, some .tuple⟩, ⟨0, none, some 0, some .int⟩] := by
    rw [memoReports, Program.ofText, collidingCalls, Program.parse_ofList]
    decide +kernel
  obtain ⟨transformed, succeeds, calls⟩ := memoReports_eq_some told
  obtain ⟨first, member, lookup, looks, cache, wrote, -, bound⟩ := calls _ List.mem_cons_self
  obtain ⟨second, member', lookup', looks', cache', -, answered, bound'⟩ :=
    calls _ (List.mem_cons_of_mem _ List.mem_cons_self)
  exact ⟨transformed, succeeds, first, member, second, member', lookup, lookup', 0, looks, looks',
    cache'.trans cache.symm, wrote, answered, bound, bound'⟩

end Trampoline
