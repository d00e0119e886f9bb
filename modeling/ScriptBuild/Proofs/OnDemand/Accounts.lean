import Mathlib.Data.Set.Card
import ScriptBuild.Proofs.OnDemand.Ending

/-!
# What the cache accounts for

`cache_accounts`: over any run of calls, failing ones included, the cache holds the artifact of
the last request for each name that succeeded since it was cleared, and nothing else. The
history is what the journal takes note of (`Call.Noted`); `account` reads off it what the slot of
a name holds, and `Accounted` says that a step changes the slots by just what it notes.
-/

namespace ScriptBuild

variable {events : List Event} {event : Event} {ns name : String} {a : Artifact}

-- ---------------------------------------------------------------------------
-- Histories
-- ---------------------------------------------------------------------------

/-- `event` happened, and nothing after it that `undoes` it. -/
def Stands (undoes : Event → Prop) (event : Event) (events : List Event) : Prop :=
  ∃ before after, events = before ++ event :: after ∧ ∀ e ∈ after, ¬undoes e

/-- The last request for `ns` that succeeded got `a`, and the cache was not cleared since. -/
def LastSuccess (events : List Event) (ns : String) (a : Artifact) : Prop :=
  Stands (fun e => e = .cleared ∨ ∃ b, e = .demanded ns (some b)) (.demanded ns (some a)) events

def Succeeded (events : List Event) (ns : String) : Prop :=
  ∃ a, Stands (· = .cleared) (.demanded ns (some a)) events

def LookedUp (events : List Event) (ns : String) : Prop :=
  ∃ result, Stands (· = .cleared) (.demanded ns result) events

theorem not_stands_nil {undoes : Event → Prop} : ¬Stands undoes event [] := by
  rintro ⟨before, after, h, -⟩
  simp at h

theorem stands_concat {undoes : Event → Prop} {last : Event} :
    Stands undoes event (events ++ [last]) ↔
      event = last ∨ (Stands undoes event events ∧ ¬undoes last) := by
  constructor
  · rintro ⟨before, after, h, hafter⟩
    rcases List.eq_nil_or_concat' after with rfl | ⟨after, final, rfl⟩
    · obtain ⟨-, heq⟩ := List.append_inj' h rfl
      exact .inl (List.singleton_inj.mp heq).symm
    · rw [← List.cons_append, ← List.append_assoc] at h
      obtain ⟨rfl, heq⟩ := List.append_inj' h rfl
      obtain rfl := List.singleton_inj.mp heq
      exact .inr ⟨⟨before, after, rfl, fun e he => hafter e (List.mem_append_left _ he)⟩,
        hafter last (by simp)⟩
  · rintro (rfl | ⟨⟨before, after, rfl, hafter⟩, hlast⟩)
    · exact ⟨events, [], rfl, nofun⟩
    · refine ⟨before, after ++ [last], by simp, fun e he => ?_⟩
      rcases List.mem_append.mp he with he | he
      · exact hafter e he
      · exact List.mem_singleton.mp he ▸ hlast

-- ---------------------------------------------------------------------------
-- What a history says
-- ---------------------------------------------------------------------------

/-- The slot of `ns` after an event: a request opens it, and fills it if it succeeds. -/
def Event.account (ns : String) (slot : Option (Option Artifact)) :
    Event → Option (Option Artifact)
  | .demanded name result => if name = ns then some (result.or slot.join) else slot
  | .cleared => none
  | _ => slot

def account (ns : String) (slot : Option (Option Artifact)) (events : List Event) :
    Option (Option Artifact) :=
  events.foldl (Event.account ns) slot

def Event.isAccount : Event → Bool
  | .demanded .. => true
  | .cleared => true
  | _ => false

theorem account_append (ns : String) (slot : Option (Option Artifact)) (front back : List Event) :
    account ns slot (front ++ back) = account ns (account ns slot front) back :=
  List.foldl_append

theorem account_singleton (ns : String) (slot : Option (Option Artifact)) (event : Event) :
    account ns slot [event] = event.account ns slot := rfl

theorem account_of_idle {slot : Option (Option Artifact)}
    (h : ∀ e ∈ events, ∀ slot, e.account ns slot = slot) : account ns slot events = slot := by
  induction events with
  | nil => rfl
  | cons e events ih =>
    rw [List.forall_mem_cons] at h
    rw [account, List.foldl_cons, h.1]
    exact ih h.2

theorem Event.account_of_quiet {slot : Option (Option Artifact)} (h : event.isAccount = false) :
    event.account ns slot = slot := by
  cases event with
  | demanded | cleared => cases h
  | compiled | optimized | warned | printed => rfl

theorem Event.join_account_eq_some_iff {slot : Option (Option Artifact)} :
    (event.account ns slot).join = some a ↔ event = .demanded ns (some a) ∨
      (slot.join = some a ∧ ¬(event = .cleared ∨ ∃ b, event = .demanded ns (some b))) := by
  cases event with
  | demanded name result =>
    by_cases hname : name = ns
    · cases result with
      | none => simp [Event.account, hname]
      | some b => simp [Event.account, hname]
    · simp [Event.account, hname]
  | cleared => simp [Event.account]
  | compiled | optimized | warned | printed => simp [Event.account]

theorem Event.isSome_account_iff {slot : Option (Option Artifact)} :
    (event.account ns slot).isSome = true ↔ (∃ result, event = .demanded ns result) ∨
      (slot.isSome = true ∧ event ≠ .cleared) := by
  cases event with
  | demanded name result =>
    by_cases hname : name = ns
    · simp [Event.account, hname]
    · simp [Event.account, hname]
  | cleared => simp [Event.account]
  | compiled | optimized | warned | printed => simp [Event.account]

theorem join_account_eq_some_iff :
    (account ns none events).join = some a ↔ LastSuccess events ns a := by
  induction events using List.reverseRecOn with
  | nil => exact ⟨nofun, fun h => absurd h not_stands_nil⟩
  | append_singleton events e ih =>
    rw [LastSuccess, stands_concat, ← LastSuccess, ← ih, account_append, account_singleton,
      Event.join_account_eq_some_iff, eq_comm]

theorem isSome_join_account_iff :
    (account ns none events).join.isSome = true ↔ Succeeded events ns := by
  induction events using List.reverseRecOn with
  | nil => exact ⟨nofun, fun ⟨_, h⟩ => absurd h not_stands_nil⟩
  | append_singleton events e ih =>
    simp only [Succeeded, stands_concat, exists_or, exists_and_right]
    rw [← Succeeded, ← ih, account_append, account_singleton, Option.isSome_iff_exists,
      Option.isSome_iff_exists]
    simp only [Event.join_account_eq_some_iff, exists_or, exists_and_right]
    by_cases hsuccess : ∃ b, e = .demanded ns (some b)
    · exact iff_of_true (.inl hsuccess) (.inl (hsuccess.imp fun _ => Eq.symm))
    · simp only [hsuccess, or_false, eq_comm]

theorem isSome_account_iff : (account ns none events).isSome = true ↔ LookedUp events ns := by
  induction events using List.reverseRecOn with
  | nil => exact ⟨nofun, fun ⟨_, h⟩ => absurd h not_stands_nil⟩
  | append_singleton events e ih =>
    simp only [LookedUp, stands_concat, exists_or, exists_and_right]
    rw [← LookedUp, ← ih, account_append, account_singleton, Event.isSome_account_iff]
    simp only [eq_comm, ne_eq]

-- ---------------------------------------------------------------------------
-- The cache and its history
-- ---------------------------------------------------------------------------

/-- A cache has a slot for each name that was looked up, and these hold the successes of a
history, each by its last artifact. -/
structure Accounts (cache : Cache) (events : List Event) : Prop where
  slots : ∀ ns, cache.slots.contains ns = true ↔ LookedUp events ns
  found : ∀ ns a, cache.find? ns = some a ↔ LastSuccess events ns a
  contains : ∀ ns, cache.contains ns = true ↔ Succeeded events ns
  size : {ns | Succeeded events ns}.encard = cache.size
  empty : cache.isEmpty = true ↔ ∀ ns, ¬Succeeded events ns

theorem accounts_of_slots {cache : Cache}
    (h : ∀ ns, cache.slots.find? ns = account ns none events) : Accounts cache events := by
  have hcontains : ∀ ns, cache.contains ns = true ↔ Succeeded events ns := fun ns => by
    rw [Cache.contains_eq, Cache.find?, h, isSome_join_account_iff]
  have hkeys : {ns | Succeeded events ns} = ↑cache.filled.keys.toFinset := by
    ext ns
    rw [Set.mem_ofPred_eq, ← hcontains, ← Cache.contains_filled, Registry.contains,
      ← Registry.mem_keys_iff, Finset.mem_coe, List.mem_toFinset]
  have hnodup : cache.filled.keys.Nodup := cache.filled.nodup
  have hsize : {ns | Succeeded events ns}.encard = cache.size := by
    rw [hkeys, Set.encard_coe_eq_coe_finsetCard, List.toFinset_card_of_nodup hnodup,
      Registry.keys, List.length_map, ← Registry.size, Cache.size_filled]
  refine ⟨fun ns => by rw [Registry.contains, h, isSome_account_iff],
    fun ns a => by rw [Cache.find?, h, join_account_eq_some_iff], hcontains, hsize, ?_⟩
  rw [Cache.isEmpty, beq_iff_eq, ← Nat.cast_eq_zero (R := ℕ∞), ← hsize, Set.encard_eq_zero,
    Set.eq_empty_iff_forall_notMem]
  exact Iff.rfl

namespace OnDemand

variable [WorkingDirectory]

variable {compiler : Compiler} {o : Options} {w w₀ w₁ w' v : Workspace}

/-- A step changes the cache by just what it takes note of. -/
structure Accounted (w w' : Workspace) : Prop where
  journal : w.journal <+: w'.journal
  slot : ∀ ns, w'.cache.slots.find? ns = account ns (w.cache.slots.find? ns) (w.since w')

theorem Accounted.refl (w : Workspace) : Accounted w w :=
  ⟨List.prefix_rfl, fun ns => by rw [since_self]; rfl⟩

theorem Accounted.trans (h : Accounted w w₁) (h' : Accounted w₁ w') : Accounted w w' where
  journal := h.journal.trans h'.journal
  slot ns := by rw [since_trans h.journal h'.journal, account_append, ← h.slot, h'.slot]

-- ---------------------------------------------------------------------------
-- Single requests
-- ---------------------------------------------------------------------------

/-- A request changes the cache by what it gets, and notes it after what it did for it. -/
theorem get_noted (compiler : Compiler) (o : Options) (ns : String) (w : Workspace) :
    ∃ quiet, (∀ e ∈ quiet, e.isAccount = false) ∧
      (leaves (OnDemand.get compiler o ns w)).journal = w.journal ++ (quiet ++
        [.demanded ns (outcome (OnDemand.get compiler o ns w)).toOption]) ∧
      ∀ name, (leaves (OnDemand.get compiler o ns w)).cache.slots.find? name =
        Event.account name (w.cache.slots.find? name)
          (.demanded ns (outcome (OnDemand.get compiler o ns w)).toOption) := by
  cases hget : OnDemand.get compiler o ns w with
  | ok a w' =>
    obtain ⟨w₁, hserves, rfl⟩ := get_ok hget
    have hinsert : ∀ name, (w.cache.insert ns a).slots.find? name =
        Event.account name (w.cache.slots.find? name) (.demanded ns (some a)) := fun name => by
      rw [Cache.find?_slots_insert, Event.account]
      simp only [eq_comm, Option.some_or]
    cases hserves with
    | cached _ hslot =>
      refine ⟨[], nofun, rfl, fun name => ?_⟩
      show w.cache.slots.find? name = if ns = name then some (some a) else w.cache.slots.find? name
      split
      next heq => rw [← heq, Option.join_eq_some_iff.mp hslot]
      · rfl
    | read => exact ⟨[], nofun, rfl, hinsert⟩
    | compiled => exact ⟨[_], by simp [Event.isAccount], List.append_assoc .., hinsert⟩
  | error error w' =>
    obtain ⟨w₁, hfails, rfl⟩ := get_fails hget
    have hopen : ∀ name, (w.cache.slot ns).slots.find? name =
        Event.account name (w.cache.slots.find? name) (.demanded ns none) := fun name => by
      rw [Cache.find?_slots_slot, Event.account]
      split
      next heq => rw [heq, if_pos rfl]; rfl
      next hne => rw [if_neg (Ne.symm hne)]
    cases hfails with
    | unread | unknown => exact ⟨[], nofun, rfl, hopen⟩
    | refused => exact ⟨[_], by simp [Event.isAccount], List.append_assoc .., hopen⟩

theorem accounted_get (compiler : Compiler) (o : Options) (ns : String) (w : Workspace) :
    Accounted w (leaves (OnDemand.get compiler o ns w)) := by
  obtain ⟨quiet, hquiet, hjournal, hslot⟩ := get_noted compiler o ns w
  refine ⟨⟨_, hjournal.symm⟩, fun name => ?_⟩
  have hidle : ∀ e ∈ quiet, ∀ slot, e.account name slot = slot := fun e he _ =>
    Event.account_of_quiet (hquiet e he)
  rw [since_eq hjournal, account_append, account_of_idle hidle, account_singleton, hslot]

theorem mem_since_get (h : event.isAccount = true) :
    event ∈ w.since (leaves (OnDemand.get compiler o ns w)) ↔
      event = .demanded ns (outcome (OnDemand.get compiler o ns w)).toOption := by
  obtain ⟨quiet, hquiet, hjournal, -⟩ := get_noted compiler o ns w
  rw [since_eq hjournal, List.mem_append, List.mem_singleton]
  refine or_iff_right fun hmem => ?_
  rw [hquiet event hmem] at h
  cases h

-- ---------------------------------------------------------------------------
-- Many requests
-- ---------------------------------------------------------------------------

theorem leaves_getAll_cons (compiler : Compiler) (o : Options) (fuel : Nat)
    (visited pending : List String) (ns : String) (w : Workspace) :
    ((∀ a w₁, OnDemand.get compiler o ns w ≠ .ok a w₁) ∧
        leaves (getAll compiler o (fuel + 1) visited (ns :: pending) w) =
          leaves (OnDemand.get compiler o ns w)) ∨
      ∃ a, OnDemand.get compiler o ns w = .ok a (leaves (OnDemand.get compiler o ns w)) ∧
        leaves (getAll compiler o (fuel + 1) visited (ns :: pending) w) =
          leaves (getAll compiler o fuel (ns :: visited)
            (enqueue o (ns :: visited) pending a.requires)
            (leaves (OnDemand.get compiler o ns w))) := by
  cases hget : OnDemand.get compiler o ns w with
  | error error w₁ => exact .inl ⟨nofun, by rw [getAll_stop hget]; rfl⟩
  | ok a w₁ => exact .inr ⟨a, rfl, (getAll_next hget).2⟩

theorem leaves_getAll_idle (h : fuel = 0 ∨ pending = []) :
    leaves (getAll compiler o fuel visited pending w) = w := by
  rcases h with rfl | rfl
  · cases pending <;> rfl
  · cases fuel <;> rfl

theorem accounted_getAll (compiler : Compiler) (o : Options) (fuel : Nat)
    (visited pending : List String) (w : Workspace) :
    Accounted w (leaves (getAll compiler o fuel visited pending w)) := by
  induction fuel generalizing visited pending w with
  | zero =>
    rw [leaves_getAll_idle (.inl rfl)]
    exact .refl w
  | succ fuel ih =>
    cases pending with
    | nil =>
      rw [leaves_getAll_idle (.inr rfl)]
      exact .refl w
    | cons ns pending =>
      rcases leaves_getAll_cons compiler o fuel visited pending ns w with
        ⟨-, hleft⟩ | ⟨a, -, hleft⟩
      · rw [hleft]
        exact accounted_get compiler o ns w
      · rw [hleft]
        exact (accounted_get compiler o ns w).trans (ih ..)

theorem mem_since_getAll (h : event.isAccount = true) :
    event ∈ w.since (leaves (getAll compiler o fuel visited pending w)) ↔
      ∃ ns v, Asks compiler o fuel visited pending w ns v ∧
        event = .demanded ns (outcome (OnDemand.get compiler o ns v)).toOption := by
  induction fuel generalizing visited pending w with
  | zero =>
    rw [leaves_getAll_idle (.inl rfl), since_self]
    exact ⟨nofun, nofun⟩
  | succ fuel ih =>
    cases pending with
    | nil =>
      rw [leaves_getAll_idle (.inr rfl), since_self]
      exact ⟨nofun, nofun⟩
    | cons ns pending =>
      rcases leaves_getAll_cons compiler o fuel visited pending ns w with
        ⟨hfails, hleft⟩ | ⟨a, hget, hleft⟩
      · rw [hleft, mem_since_get h]
        refine ⟨fun heq => ⟨ns, w, .first, heq⟩, ?_⟩
        rintro ⟨ns', v, hasks, heq⟩
        cases hasks with
        | first => exact heq
        | later hok => exact absurd hok (hfails _ _)
      · rw [hleft, since_trans (accounted_get ..).journal (accounted_getAll ..).journal,
          List.mem_append, ih, mem_since_get h]
        constructor
        · rintro (heq | ⟨ns', v, hasks, heq⟩)
          · exact ⟨ns, w, .first, heq⟩
          · exact ⟨ns', v, .later hget hasks, heq⟩
        · rintro ⟨ns', v, hasks, heq⟩
          cases hasks with
          | first => exact .inl heq
          | later hok hasks =>
            obtain ⟨rfl, rfl⟩ := EStateM.Result.ok.inj (hget.symm.trans hok)
            exact .inr ⟨ns', v, hasks, heq⟩

theorem Asks.notMem_visited (h : Asks compiler o fuel visited pending w ns v)
    (hnodup : (visited ++ pending).Nodup) : ns ∉ visited := by
  induction h with
  | first => exact fun hv => (List.nodup_append.mp hnodup).2.2 _ hv _ List.mem_cons_self rfl
  | later _ _ ih => exact fun hv => ih (nodup_next hnodup) (List.mem_cons_of_mem _ hv)

/-- What a request of a run gets stays in the cache until the run ends, however it ends. -/
theorem Asks.kept (h : Asks compiler o fuel visited pending w ns v)
    (hnodup : (visited ++ pending).Nodup) (hgot : OnDemand.get compiler o ns v = .ok a v') :
    (leaves (getAll compiler o fuel visited pending w)).cache.find? ns = some a := by
  induction h with
  | @first fuel visited ns pending w =>
    rw [(getAll_next hgot).2, Cache.find?, (accounted_getAll ..).slot]
    have hslot : v'.cache.slots.find? ns = some (some a) := by
      obtain ⟨-, -, -, hslot⟩ := get_noted compiler o ns w
      rw [hgot] at hslot
      exact (hslot ns).trans (if_pos rfl)
    -- the name is visited now, so that no later request is for it
    have hlater : ∀ e ∈ v'.since (leaves (getAll compiler o fuel (ns :: visited)
        (enqueue o (ns :: visited) pending a.requires) v')),
        ∀ slot, e.account ns slot = slot := by
      intro e he slot
      cases hconcerns : e.isAccount with
      | false => exact Event.account_of_quiet hconcerns
      | true =>
        obtain ⟨ns', u, hasks, rfl⟩ := (mem_since_getAll hconcerns).mp he
        have hne : ns' ≠ ns := fun heq =>
          hasks.notMem_visited (nodup_next hnodup) (heq ▸ List.mem_cons_self)
        exact if_neg hne
    rw [hslot, account_of_idle hlater]
    rfl
  | later hget _ ih =>
    rw [(getAll_next hget).2]
    exact ih (nodup_next hnodup) hgot

-- ---------------------------------------------------------------------------
-- Calls
-- ---------------------------------------------------------------------------

/-- The workspaces that calls of any kind lead to, with any compilers. Between calls anything may
happen to the tree. -/
inductive Session (w₀ : Workspace) : Workspace → Prop
  | start : Session w₀ w₀
  | call {w : Workspace} (compiler : Compiler) (c : Call) :
      Session w₀ w → Session w₀ (c.after compiler w)
  | outside {w : Workspace} (t : FileTree) : Session w₀ w → Session w₀ { w with tree := t }

structure Call.Noted (compiler : Compiler) (w : Workspace) (c : Call) : Prop where
  journal : w.journal <+: (c.after compiler w).journal
  requests : ∀ ns result, .demanded ns result ∈ w.since (c.after compiler w) ↔
    ∃ o v, c.Makes compiler w o ns v ∧ (outcome (OnDemand.get compiler o ns v)).toOption = result
  clearing : .cleared ∈ w.since (c.after compiler w) ↔ c = .clear

theorem accounted_clear (compiler : Compiler) (w : Workspace) :
    Accounted w (Call.after compiler w .clear) :=
  have hjournal : (Call.after compiler w .clear).journal = w.journal ++ [.cleared] := rfl
  ⟨⟨_, hjournal.symm⟩, fun ns => by rw [since_eq hjournal]; rfl⟩

theorem accounted_after (compiler : Compiler) (w : Workspace) (c : Call) :
    Accounted w (c.after compiler w) := by
  cases c with
  | get o ns => exact accounted_get compiler o ns w
  | dependencies o names =>
    rw [Call.after, leaves_dependencies]
    exact accounted_getAll ..
  | clear => exact accounted_clear compiler w

theorem mem_since_after {c : Call} (h : event.isAccount = true) :
    event ∈ w.since (c.after compiler w) ↔ (event = .cleared ∧ c = .clear) ∨
      ∃ o ns v, c.Makes compiler w o ns v ∧
        event = .demanded ns (outcome (OnDemand.get compiler o ns v)).toOption := by
  cases c with
  | get o ns =>
    rw [Call.after, mem_since_get h]
    constructor
    · exact fun heq => .inr ⟨o, ns, w, .get, heq⟩
    · rintro (⟨-, hclear⟩ | ⟨o, ns, v, hmade, heq⟩)
      · cases hclear
      · cases hmade
        exact heq
  | dependencies o names =>
    rw [Call.after, leaves_dependencies, mem_since_getAll h]
    constructor
    · rintro ⟨ns, v, hasks, heq⟩
      exact .inr ⟨o, ns, v, .dependencies hasks, heq⟩
    · rintro (⟨-, hclear⟩ | ⟨o, ns, v, hmade, heq⟩)
      · cases hclear
      · cases hmade with
        | dependencies hasks => exact ⟨ns, v, hasks, heq⟩
  | clear =>
    have hjournal : (Call.after compiler w .clear).journal = w.journal ++ [.cleared] := rfl
    rw [since_eq hjournal, List.mem_singleton]
    constructor
    · exact fun heq => .inl ⟨heq, rfl⟩
    · rintro (⟨heq, -⟩ | ⟨o, ns, v, hmade, -⟩)
      · exact heq
      · cases hmade

theorem Call.noted (compiler : Compiler) (w : Workspace) (c : Call) : c.Noted compiler w where
  journal := (accounted_after compiler w c).journal
  requests ns result := by
    have hrequest : (Event.demanded ns result).isAccount = true := rfl
    rw [mem_since_after hrequest]
    constructor
    · rintro (⟨hclear, -⟩ | ⟨o, ns', v, hmade, heq⟩)
      · cases hclear
      · obtain ⟨hname, hresult⟩ := Event.demanded.inj heq
        exact ⟨o, v, hname ▸ hmade, hname ▸ hresult.symm⟩
    · rintro ⟨o, v, hmade, hresult⟩
      exact .inr ⟨o, ns, v, hmade, hresult ▸ rfl⟩
  clearing := by
    have hclearing : Event.cleared.isAccount = true := rfl
    rw [mem_since_after hclearing]
    constructor
    · rintro (⟨-, hclear⟩ | ⟨o, ns, v, -, heq⟩)
      · exact hclear
      · cases heq
    · exact fun hclear => .inl ⟨rfl, hclear⟩

theorem Session.accounted (h : Session w₀ w) : Accounted w₀ w := by
  induction h with
  | start => exact .refl w₀
  | call compiler c _ ih => exact ih.trans (accounted_after compiler _ c)
  | outside _ _ ih => exact ⟨ih.journal, ih.slot⟩

/-- The cache accounts for the requests that succeeded since it was cleared, and for no others.
One that fails opens a slot and changes none, and what succeeds before another fails stays. -/
theorem cache_accounts (h : Session w₀ w) (hempty : w₀.cache = ∅) :
    Accounts w.cache (w₀.since w) ∧
      (∀ compiler (c : Call), c.Noted compiler w) ∧
      (∀ compiler o ns v error v', OnDemand.get compiler o ns v = .error error v' →
        v'.cache = v.cache.slot ns ∧ v'.cache.filled = v.cache.filled ∧
          ∀ name, v'.cache.find? name = v.cache.find? name) ∧
      ∀ compiler o names ns v a v', Call.Makes compiler w (.dependencies o names) o ns v →
        OnDemand.get compiler o ns v = .ok a v' →
          (Call.after compiler w (.dependencies o names)).cache.find? ns = some a := by
  refine ⟨accounts_of_slots fun ns => ?_, fun compiler c => c.noted compiler w,
    fun compiler o ns v error v' hfails => ⟨(get_error hfails).1, ?_, find?_get_error hfails⟩, ?_⟩
  · rw [h.accounted.slot, hempty]
    rfl
  · rw [(get_error hfails).1, Cache.filled_slot]
  · intro compiler o names ns v a v' hmade hgot
    cases hmade with
    | dependencies hasks =>
      rw [Call.after, leaves_dependencies]
      exact hasks.kept (nodup_distinctNames _) hgot

end OnDemand

end ScriptBuild

namespace ScriptBuild.OnDemand

/-- Of two names that are requested together the first stays cached where the second fails. Both
have a slot then. -/
theorem cache_accounts_of_failure :
    (outcome (dependencies sampleCompiler { languageRoots := ["b", "c"] } ["b", "c"]
        sample)).toOption.isNone = true ∧
      ∃ w, Session sample w ∧ Accounts w.cache (sample.since w) ∧ w.cache.slots.size = 2 ∧
        w.cache.size = 1 ∧ w.cache.contains "b" = true := by
  have hcheck :
      (outcome (dependencies sampleCompiler { languageRoots := ["b", "c"] } ["b", "c"]
          sample)).toOption.isNone = true ∧
        (Call.after sampleCompiler sample
          (.dependencies { languageRoots := ["b", "c"] } ["b", "c"])).cache.slots.size = 2 ∧
        (Call.after sampleCompiler sample
          (.dependencies { languageRoots := ["b", "c"] } ["b", "c"])).cache.size = 1 ∧
        (Call.after sampleCompiler sample
          (.dependencies { languageRoots := ["b", "c"] } ["b", "c"])).cache.contains "b" =
            true := by
    decide +kernel
  have hrun : Session sample (Call.after sampleCompiler sample
      (.dependencies { languageRoots := ["b", "c"] } ["b", "c"])) := .call _ _ .start
  exact ⟨hcheck.1, _, hrun, (cache_accounts hrun rfl).1, hcheck.2⟩

end ScriptBuild.OnDemand
